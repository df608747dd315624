import ImpSSA.Proofs.Simulation.Command

/-!
# Correctness of compilation

The bounded runs of a compiled program are determined by the run of its command. If the command ends,
the program finishes with the values of the stored names as soon as its fuel suffices, and before
that it is out of fuel; if the command does not end, the program is out of fuel for every fuel. Both
directions of correctness follow: `finishes_of_final` for what the source computes, and
`finished_or_outOfFuel` for what the program can answer.
-/

namespace ImpSSA
open IR Machine

section
variable {c : Node} {entry : Key} {prints : Bool} {names : List String} {p : Program}

/-- A call of a compiled program comes to the code of the command with the empty store. -/
lemma Compiled.start (h : Compiled c entry prints names p) (distinct : names.Nodup) :
    ∃ (L : Layout) (code : List (InstrId × Item)) (n v n' v' : Nat) (s₀ s : State),
      L.program = p ∧ L.names = names ∧ L.first ≤ n ∧
      PrintsCode L.context n v (if prints then names else []) code n' v' ∧
      L.last = instrs code ++ [.term (.void v') (.term .retVoid)] ∧
      init p entry [] = .ok s₀ ∧ Steps p s₀ (2 * names.length) [] s ∧ Matches L [c] ∅ s 0 := by
  obtain ⟨body, printing, written⟩ := h
  rename_i es n v code n' v' blocks
  let L : Layout := {
    program := programOf prints ⟨entry, ⟨.void, []⟩, [], blocks⟩
    fn := entry
    whole := functionStream names es code v'
    names := names
    last := instrs code ++ [.term (.void v') (.term .retVoid)]
    image := image_programOf (numbered_functionStream body printing) written
    distinct := distinct
    ends := by simp [region] }
  have pending : Pending L (es ++ L.last) [c] 0 := .command le_rfl body .done
  obtain ⟨s₀, s, init, steps, fn, stands, holds⟩ := Layout.start (L := L) rfl
    pending.region_ne_nil (definition?_programOf prints _) rfl
  exact ⟨L, code, n, v, n', v', s₀, s, rfl, rfl, body.numbered.le, printing, rfl, init, steps, fn,
    ⟨_, stands, pending⟩, holds⟩

/-- The number of steps of a compiled program whose command pops the given commands. -/
def Node.compiledSteps (names : List String) (popped : List Node) : Nat :=
  2 * names.length + totalCost popped + 1

/-- If the command ends, the compiled program comes with its values to the code behind it. -/
lemma Compiled.reaches_last {popped σ} (h : Compiled c entry prints names p) (distinct : names.Nodup)
    (runs : Node.Runs [c] ∅ popped σ) :
    ∃ (L : Layout) (code : List (InstrId × Item)) (n v n' v' : Nat) (s₀ s : State),
      L.program = p ∧ L.names = names ∧ L.first ≤ n ∧
      PrintsCode L.context n v (if prints then names else []) code n' v' ∧
      init p entry [] = .ok s₀ ∧ Steps p s₀ (2 * names.length + Node.totalCost popped) [] s ∧
      At p s.pc (code ++ [(.void v', .term .retVoid)]) ∧ Holds L σ s := by
  obtain ⟨L, code, n, v, n', v', s₀, s, rfl, rfl, le, printing, last, init, prologue, rel⟩ :=
    h.start distinct
  obtain ⟨m, s₁, d, steps, ended, cost⟩ := rel.runs runs
  obtain ⟨s₂, branches, here, stands, holds⟩ := ended.finish
  refine ⟨L, code, n, v, n', v', s₀, s₂, rfl, rfl, le, printing, init, ?_, ?_, holds⟩
  · have all := (prologue.trans_nil steps).trans_nil branches
    rwa [Nat.add_assoc, cost, Nat.add_zero] at all
  · have left := stands.at L.image here
    rwa [last, region_instrs] at left

/-- If the command ends, all steps of the compiled program but the return lead to its values. -/
lemma Compiled.steps {popped σ} (h : Compiled c entry false names p) (distinct : names.Nodup)
    (runs : Node.Runs [c] ∅ popped σ) :
    ∃ s₀ s, init p entry [] = .ok s₀ ∧
      Steps p s₀ (2 * names.length + Node.totalCost popped) [] s ∧
      step p s = .terminated (names.reverse.map fun x => .int (σ.value x)) none := by
  obtain ⟨L, code, n, v, n', v', s₀, s, rfl, rfl, _, printing, init, steps, left, holds⟩ :=
    h.reaches_last distinct runs
  cases printing with
  | nil => exact ⟨s₀, s, init, steps, holds.terminates left⟩

/-- With enough fuel the compiled program finishes with the values of the command. -/
lemma Compiled.run_eq {popped σ} (h : Compiled c entry false names p) (distinct : names.Nodup)
    (runs : Node.Runs [c] ∅ popped σ) {fuel : Int} (enough : Node.compiledSteps names popped ≤ fuel) :
    Machine.run p entry fuel = .ok ⟨.finished (names.reverse.map fun x => .int (σ.value x)) none,
      Node.compiledSteps names popped, []⟩ := by
  obtain ⟨s₀, s, init, steps, last⟩ := h.steps distinct runs
  exact steps.run_eq init last enough

/-- With less fuel it is out of fuel. -/
lemma Compiled.run_short {popped σ} (h : Compiled c entry false names p) (distinct : names.Nodup)
    (runs : Node.Runs [c] ∅ popped σ) {fuel : Int} (short : fuel < Node.compiledSteps names popped) :
    Machine.run p entry fuel = .ok ⟨.outOfFuel, fuel.toNat, []⟩ := by
  obtain ⟨s₀, s, init, steps, _⟩ := h.steps distinct runs
  rw [Node.compiledSteps] at short
  exact steps.run_short init (by omega)

/-- If the command does not end, the compiled program is out of fuel for every fuel. -/
lemma Compiled.run_diverges (h : Compiled c entry prints names p) (distinct : names.Nodup)
    (no : ∀ popped σ, ¬ Node.Runs [c] ∅ popped σ) (fuel : Int) :
    Machine.run p entry fuel = .ok ⟨.outOfFuel, fuel.toNat, []⟩ := by
  obtain ⟨L, code, n, v, n', v', s₀, s, rfl, rfl, _, _, _, init, prologue, rel⟩ := h.start distinct
  obtain ⟨m, s', enough, steps⟩ := rel.diverges no fuel.toNat
  exact (prologue.trans_nil steps).run_short init (by omega)

end

/-- A command that ends with a store compiles to a program that, with enough fuel, finishes with the
values of the stored names, the last name first, and nothing else in memory. -/
theorem finishes_of_final {c : Node} (ws : c.WellSorted .command) (entry : Key)
    {declared : Option (List String)} (admits : c.Admits declared) {fuel : Int} {σ : Store}
    {steps : Nat} (final : c.run fuel ∅ = .ok (.final σ steps)) :
    ∃ p, c.compile entry false declared = .ok p ∧ ∃ enough : Nat, ∀ fuel' : Int, enough ≤ fuel' →
      Machine.run p entry fuel' = .ok ⟨.finished
        ((c.storage declared).reverse.map fun x => .int (σ.value x)) none, enough, []⟩ := by
  obtain ⟨p, compiled, shape⟩ := exists_compiled ws entry false admits
  obtain ⟨popped, runs⟩ := Node.exists_runs_of_final final
  exact ⟨p, compiled, _, fun fuel' enough => shape.run_eq (c.nodup_storage declared) runs enough⟩

/-- Counts down from three and doubles the largest word on the way. -/
def countdown : Node :=
  .seq (.assign "n" (.num 3)) (.seq (.assign "top" (.num 9223372036854775807))
    (.loop (.not (.cmp .le (.var "n") (.num 0)))
      (.seq (.cond (.and (.cmp .eq (.var "n") (.num 2)) (.bool true))
          (.assign "top" (.arith .plus (.var "top") (.var "top"))) .skip)
        (.assign "n" (.arith .minus (.var "n") (.num 1))))))

/-- The doubled word wraps, and a declared name that is never assigned is zero. -/
theorem countdown_finishes :
    ∃ p, countdown.compile (.named "f") false (some ["top", "n", "spare", "n"]) = .ok p ∧
      ∃ enough : Nat, ∀ fuel : Int, enough ≤ fuel →
        Machine.run p (.named "f") fuel =
          .ok ⟨.finished [.int (-2), .int 0, .int 0] none, enough, []⟩ := by
  have ws : countdown.WellSorted .command := by
    repeat constructor
  have admits : countdown.Admits (some ["top", "n", "spare", "n"]) := by
    unfold Node.Admits
    decide +kernel
  have final : countdown.run 100 ∅ = .ok (.final (Table.ofList [("n", 0), ("top", -2)]) 20) := by
    rfl
  have finishes := finishes_of_final ws (.named "f") admits final
  have names : countdown.storage (some ["top", "n", "spare", "n"]) = ["n", "spare", "top"] := by
    decide +kernel
  rw [names] at finishes
  exact finishes

/-- A compiled program never fails: it finishes or is out of fuel. What it finishes with are the
values that the command ends with, and it is out of fuel for every fuel if the command is. -/
theorem finished_or_outOfFuel {c : Node} (ws : c.WellSorted .command) (entry : Key) :
    ∃ p, c.compile entry false none = .ok p ∧
      (∀ fuel : Int, ∃ r, Machine.run p entry fuel = .ok r ∧
        ((∃ memory v, r.result = .finished memory v) ∨ r.result = .outOfFuel) ∧
        ∀ memory v, r.result = .finished memory v → ∃ (f : Int) (σ : Store) (n : Nat),
          c.run f ∅ = .ok (.final σ n) ∧ memory = c.vars.reverse.map fun x => .int (σ.value x)) ∧
      ((∀ f : Int, ∃ n, c.run f ∅ = .ok (.diverged n)) →
        ∀ fuel : Int, ∃ r, Machine.run p entry fuel = .ok r ∧ r.result = .outOfFuel) := by
  obtain ⟨p, compiled, shape⟩ := exists_compiled ws entry false (show c.Admits none from trivial)
  refine ⟨p, compiled, ?_⟩
  -- whether the command ends does not depend on fuel, and settles both sides for all fuel
  by_cases ends : ∃ popped σ, Node.Runs [c] ∅ popped σ
  · obtain ⟨popped, σ, runs⟩ := ends
    have final := runs.run_eq le_rfl
    refine ⟨fun fuel => ?_, fun diverged => ?_⟩
    · rcases lt_or_ge fuel (Node.compiledSteps c.vars popped) with short | enough
      · exact ⟨_, shape.run_short (c.nodup_storage none) runs short, .inr rfl, by nofun⟩
      · refine ⟨_, shape.run_eq (c.nodup_storage none) runs enough, .inl ⟨_, _, rfl⟩, ?_⟩
        intro memory v eq
        cases eq
        exact ⟨_, σ, _, final, rfl⟩
    · obtain ⟨n, eq⟩ := diverged popped.length
      cases final.symm.trans eq
  · have no : ∀ popped σ, ¬ Node.Runs [c] ∅ popped σ := fun popped σ runs => ends ⟨popped, σ, runs⟩
    have spent := shape.run_diverges (c.nodup_storage none) no
    exact ⟨fun fuel => ⟨_, spent fuel, .inr rfl, by nofun⟩, fun _ fuel => ⟨_, spent fuel, rfl⟩⟩

/-- Counts upwards for ever. -/
def spin : Node := .loop (.bool true) (.assign "n" (.arith .plus (.var "n") (.num 1)))

/-- The loop runs out of every fuel. -/
lemma spin_diverges (fuel : Int) : ∃ n, spin.run fuel ∅ = .ok (.diverged n) := by
  have general : ∀ (fuel steps : Nat) (σ : Store),
      ∃ n, Node.runPending fuel steps [spin] σ = .ok (.diverged n) := by
    intro fuel
    induction fuel using Nat.twoStepInduction with
    | zero => exact fun steps σ => ⟨_, rfl⟩
    | one => exact fun steps σ => ⟨_, rfl⟩
    -- one step for the test and one for the body, and the loop is pending again
    | more fuel ih _ => exact fun steps σ => ih _ _
  exact general _ _ _

/-- The program that counts upwards for ever is out of fuel for every fuel. -/
theorem spin_outOfFuel :
    ∃ p, spin.compile (.named "f") false none = .ok p ∧
      ∀ fuel : Int, ∃ r, Machine.run p (.named "f") fuel = .ok r ∧ r.result = .outOfFuel := by
  have ws : spin.WellSorted .command := by
    repeat constructor
  obtain ⟨p, compiled, _, spent⟩ := finished_or_outOfFuel ws (.named "f")
  exact ⟨p, compiled, spent spin_diverges⟩

end ImpSSA
