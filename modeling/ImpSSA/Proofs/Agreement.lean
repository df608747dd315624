import ImpSSA.Agreement
import ImpSSA.Proofs.CodeGen.Verified
import ImpSSA.Proofs.Simulation.Correctness

/-!
# Checks raise no false alarm

Whether a command ends, and when, does not depend on the fuel it is given: `Ends c σ source compiled`
says that the command ends with `σ` after `source` steps and its compiled program after `compiled`
steps, or neither of them ever if these are `none`. Every well-sorted command has such numbers
(`exists_ends`), so that a check only compares them with the fuel: `check_decided_by_fuel`.
-/

namespace ImpSSA

/-- Well-sorted trees can be written. -/
lemma Node.WellSorted.render {k n} (ws : Node.WellSorted k n) : ∃ text, n.render = .ok text := by
  induction ws with
  | num | var | bool | skip => exact ⟨_, rfl⟩
  | arith _ _ ihl ihr | cmp _ _ ihl ihr | and _ _ ihl ihr | seq _ _ ihl ihr | loop _ _ ihl ihr =>
    obtain ⟨l, eql⟩ := ihl
    obtain ⟨r, eqr⟩ := ihr
    exact ⟨_, by rw [Node.render, eql, eqr]; rfl⟩
  | not _ ih | assign _ ih =>
    obtain ⟨text, eq⟩ := ih
    exact ⟨_, by rw [Node.render, eq]; rfl⟩
  | cond _ _ _ ihb ihc ihd =>
    obtain ⟨b, eqb⟩ := ihb
    obtain ⟨c, eqc⟩ := ihc
    obtain ⟨d, eqd⟩ := ihd
    exact ⟨_, by rw [Node.render, eqb, eqc, eqd]; rfl⟩

/-- A well-sorted command with assignments in front of it is well sorted. -/
lemma Node.WellSorted.seeded {c} (ws : Node.WellSorted .command c) (σ : Store) :
    (c.seeded σ).WellSorted .command := by
  apply Node.sequence_wellSorted
  refine List.forall_mem_append.2 ⟨?_, List.forall_mem_singleton.2 ws⟩
  intro d mem
  obtain ⟨⟨x, n⟩, _, rfl⟩ := List.mem_map.1 mem
  exact .assign (.num n)

namespace Agreement
open IR Machine

/-- Whether what needs the given number of steps, or never ends, ends with the fuel. -/
def endsWithin (needed : Option Nat) (fuel : Int) : Bool := needed.any fun n => n ≤ fuel

/-- The verdict if only fuel matters. -/
def verdictOf : (source compiled : Bool) → Verdict
  | true, true => .agree
  | false, true => .sourceOutOfFuel
  | true, false => .compiledOutOfFuel
  | false, false => .bothOutOfFuel

/-- The command ends with `σ` after `source` steps and its compiled program after `compiled` steps. -/
structure Ends (c : Node) (σ : Store) (source compiled : Option Nat) : Prop where
  run : ∀ fuel : Int, c.run fuel ∅ =
    .ok (if endsWithin source fuel then .final σ (source.getD 0) else .diverged fuel.toNat)
  compile : ∀ entry, ∃ p, c.compile entry false none = .ok p ∧ p.verify = .ok () ∧
    ∀ fuel : Int, Machine.run p entry fuel =
      .ok (if endsWithin compiled fuel then
          ⟨.finished (c.vars.reverse.map fun x => .int (σ.value x)) none, compiled.getD 0, []⟩
        else ⟨.outOfFuel, fuel.toNat, []⟩)

section
variable {c : Node} (ws : c.WellSorted .command)
include ws

/-- Compilation succeeds with a program that verifies, whatever the name of the function. -/
lemma exists_verified (entry : Key) : ∃ p, c.compile entry false none = .ok p ∧
    Compiled c entry false c.vars p ∧ p.verify = .ok () := by
  obtain ⟨p, compiled, shape⟩ := exists_compiled ws entry false (show c.Admits none from trivial)
  exact ⟨p, compiled, shape, Program.verify_ok_iff.2 (shape.wellFormed nofun)⟩

/-- A command that ends does so after the number of commands it pops, and its compiled program after
the steps that these cost. -/
lemma ends_of_runs {popped σ} (runs : Node.Runs [c] ∅ popped σ) :
    Ends c σ (some popped.length) (some (Node.compiledSteps c.vars popped)) := by
  have distinct := c.nodup_storage none
  constructor
  · intro fuel
    by_cases enough : popped.length ≤ fuel
    · simp [endsWithin, enough, runs.run_eq enough]
    · simp [endsWithin, enough, runs.run_short (not_le.1 enough)]
  · intro entry
    obtain ⟨p, compiled, shape, verified⟩ := exists_verified ws entry
    refine ⟨p, compiled, verified, fun fuel => ?_⟩
    by_cases enough : Node.compiledSteps c.vars popped ≤ fuel
    · simp [endsWithin, enough, shape.run_eq distinct runs enough]
    · simp [endsWithin, enough, shape.run_short distinct runs (not_le.1 enough)]

/-- If a command does not end, neither does its compiled program. -/
lemma ends_of_not_runs (no : ∀ popped σ, ¬ Node.Runs [c] ∅ popped σ) : Ends c ∅ none none := by
  refine ⟨fun fuel => Node.run_of_not_runs ws no, fun entry => ?_⟩
  obtain ⟨p, compiled, shape, verified⟩ := exists_verified ws entry
  exact ⟨p, compiled, verified, shape.run_diverges (c.nodup_storage none) no⟩

/-- Every well-sorted command ends after some number of steps, as does its compiled program, or
neither ever does. -/
lemma exists_ends : ∃ σ source compiled, Ends c σ source compiled := by
  by_cases ends : ∃ popped σ, Node.Runs [c] ∅ popped σ
  · obtain ⟨popped, σ, runs⟩ := ends
    exact ⟨_, _, _, ends_of_runs ws runs⟩
  · exact ⟨_, _, _, ends_of_not_runs ws fun popped σ runs => ends ⟨popped, σ, runs⟩⟩

end

/-- The values of the names in reverse match the store. -/
lemma memoryMatches_reverse (names : List String) (σ : Store) :
    memoryMatches names σ (names.reverse.map fun x => .int (σ.value x)) = true := by
  have all : (names.reverse.map fun x => Value.int (σ.value x)).take names.length =
      names.reverse.map fun x => .int (σ.value x) := List.take_of_length_le (by simp)
  rw [memoryMatches, all, ← List.map_reverse, List.reverse_reverse, List.map_map]
  simp [intOf?]

/-- A check of a program that is compiled, verified and run on both sides judges the two ends. -/
lemma check_eq {cfg : Config} {initial : Store} {c : Node} {p : Program} {r : Run}
    {o : Node.Outcome} {text : String}
    (compiled : (c.seeded initial).compile cfg.entry false none = .ok p)
    (verified : p.verify = .ok ()) (ran : Machine.run p cfg.entry cfg.compiledFuel = .ok r)
    (intact : ∀ crash, r.result ≠ .crashed crash)
    (source : (c.seeded initial).run cfg.sourceFuel ∅ = .ok o)
    (rendered : (c.seeded initial).render = .ok text) :
    ∃ diagnostic, check compiler cfg initial c =
      .ok ⟨judge (c.seeded initial).vars r.result o,
        (judge (c.seeded initial).vars r.result o).passes cfg.strict, diagnostic⟩ := by
  have program : verifiedProgram compiler (c.seeded initial) cfg.entry = .ok p := by
    rw [verifiedProgram, compiler, compiled]
    simp only [mapError_ok, bind, Except.bind, verified]
    rfl
  have line : programLine (c.seeded initial) = .ok ("program: " ++ text) := by
    rw [programLine, rendered]
    rfl
  rw [check]
  simp only [program, ran, source, line, mapError_ok, bind, Except.bind, pure, Except.pure]
  obtain ⟨result, steps, calls⟩ := r
  cases result with
  | crashed crash => exact absurd rfl (intact crash)
  | finished | failed | outOfFuel => exact ⟨_, rfl⟩

/-- If both sides end with what `Ends` says, only fuel matters. -/
lemma judge_eq (names : List String) (σ : Store) (source compiled : Bool) (n m i j : Nat) :
    judge names
        (if compiled then ⟨.finished (names.reverse.map fun x => .int (σ.value x)) none, m, []⟩
          else ⟨.outOfFuel, i, []⟩ : Run).result
        (if source then .final σ n else .diverged j) =
      verdictOf source compiled := by
  cases source with
  | false => cases compiled <;> rfl
  | true =>
    cases compiled with
    | false => rfl
    | true => exact if_pos (memoryMatches_reverse names σ)

/-- No verdict on fuel accuses the compiler. -/
lemma verdictOf_no_alarm (source compiled : Bool) :
    verdictOf source compiled ∉ [.mismatch, .compiledFault, .compileError] := by
  cases source <;> cases compiled <;> decide

/-- A verdict on fuel fails only strictly, and only if one side ended without the other. -/
lemma verdictOf_passes (strict source compiled : Bool) :
    (verdictOf source compiled).passes strict = false ↔ strict = true ∧ source ≠ compiled := by
  cases source <;> cases compiled <;> simp [verdictOf, Verdict.passes]

/-- A check compares the numbers of steps with the fuel. -/
lemma Ends.check_eq {c : Node} {initial σ : Store} {source compiled : Option Nat}
    (ends : Ends (c.seeded initial) σ source compiled) (ws : c.WellSorted .command) (cfg : Config) :
    ∃ diagnostic, check compiler cfg initial c =
      .ok ⟨verdictOf (endsWithin source cfg.sourceFuel) (endsWithin compiled cfg.compiledFuel),
        (verdictOf (endsWithin source cfg.sourceFuel)
          (endsWithin compiled cfg.compiledFuel)).passes cfg.strict, diagnostic⟩ := by
  obtain ⟨text, rendered⟩ := (ws.seeded initial).render
  obtain ⟨p, eq, verified, run⟩ := ends.compile cfg.entry
  obtain ⟨diagnostic, checked⟩ := Agreement.check_eq eq verified (run cfg.compiledFuel)
    (by cases endsWithin compiled cfg.compiledFuel <;> simp) (ends.run cfg.sourceFuel) rendered
  rw [judge_eq] at checked
  exact ⟨diagnostic, checked⟩

/-- A check of a well-sorted command always gives a report, and its verdict only says which of the
two sides ended with their fuel. Both need a number of steps, if they end at all, that depends on the
command and its initial values alone. A report fails only if fuel is taken strictly and one of the
sides ended without the other. -/
theorem check_decided_by_fuel {c : Node} (ws : c.WellSorted .command) (initial : Store) :
    ∃ source compiled : Option Nat,
      (∀ fuel : Int, endsWithin source fuel = true ↔
        ∃ σ n, (c.seeded initial).run fuel ∅ = .ok (.final σ n)) ∧
      (∀ entry p, (c.seeded initial).compile entry false none = .ok p → ∀ fuel : Int,
        endsWithin compiled fuel = true ↔
          ∃ r memory v, Machine.run p entry fuel = .ok r ∧ r.result = .finished memory v) ∧
      ∀ cfg, ∃ report, check compiler cfg initial c = .ok report ∧
        report.verdict ∉ [.mismatch, .compiledFault, .compileError] ∧
        report.verdict =
          verdictOf (endsWithin source cfg.sourceFuel) (endsWithin compiled cfg.compiledFuel) ∧
        (report.passed = false ↔ cfg.strict = true ∧
          endsWithin source cfg.sourceFuel ≠ endsWithin compiled cfg.compiledFuel) := by
  obtain ⟨σ, source, compiled, ends⟩ := exists_ends (ws.seeded initial)
  refine ⟨source, compiled, ?_, ?_, ?_⟩
  · intro fuel
    rw [ends.run]
    cases endsWithin source fuel <;> simp
  · intro entry p eq fuel
    obtain ⟨p', eq', _, run⟩ := ends.compile entry
    obtain rfl : p' = p := Except.ok.inj (eq'.symm.trans eq)
    rw [run]
    cases endsWithin compiled fuel <;> simp
  · intro cfg
    obtain ⟨diagnostic, checked⟩ := ends.check_eq ws cfg
    exact ⟨_, checked, verdictOf_no_alarm _ _, rfl, verdictOf_passes _ _ _⟩

/-- Takes one from a variable. -/
def decrement : Node := .assign "x" (.arith .minus (.var "x") (.num 1))

/-- The check of a seed beyond the words, with strict fuel that suffices for the source but falls one
step short of the return of the compiled code. -/
theorem decrement_check :
    ∃ report, check compiler ⟨3, 6, .named "f", true⟩ (Table.ofList [("x", 18446744073709551616)])
        decrement = .ok report ∧
      report.verdict = .compiledOutOfFuel ∧ report.passed = false := by
  have ws : decrement.WellSorted .command := by
    repeat constructor
  obtain ⟨source, compiled, sourceEnds, compiledEnds, reports⟩ :=
    check_decided_by_fuel ws (Table.ofList [("x", 18446744073709551616)])
  have ended : endsWithin source 3 = true := (sourceEnds 3).2 ⟨_, _, rfl⟩
  have spent : endsWithin compiled 6 = false := by
    refine Bool.eq_false_iff.2 fun enough => ?_
    have program := Node.compile_none (decrement.seeded (Table.ofList [("x", 18446744073709551616)]))
      (.named "f") false
    have names : (decrement.seeded (Table.ofList [("x", 18446744073709551616)])).vars = ["x"] := by
      decide +kernel
    rw [names] at program
    obtain ⟨r, memory, v, run, finished⟩ := (compiledEnds (.named "f") _ program 6).1 enough
    cases run
    cases finished
  obtain ⟨report, checked, _, verdict, passed⟩ := reports ⟨3, 6, .named "f", true⟩
  rw [ended, spent] at verdict passed
  exact ⟨report, checked, verdict, passed.2 ⟨rfl, by decide⟩⟩

end Agreement

end ImpSSA
