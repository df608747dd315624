import Mathlib.Algebra.Order.BigOperators.Group.List
import Mathlib.Algebra.Order.Ring.Nat
import ImpSSA.Proofs.Agreement
import ImpSSA.Proofs.Node.BigStep
import ImpSSA.Proofs.Node.Parts

/-!
# The cost of compiled code

The compiled program of a command takes a number of steps that the run of the command determines: two
for each variable, the cost of every command that is popped, and the return. The branches that close a
conditional or a round of a loop are executed later than the command that pays for them is popped, so
this holds of whole runs only.

A command costs no more than its size, and no command is ever pending that is larger than the whole
(`Runs.size_le`). Hence the fuel of the source bounds the fuel that the compiled code needs, and a check
with that much fuel never finds the compiled side alone out of fuel (`compiled_steps_exact`).
-/

namespace ImpSSA
open IR Machine

namespace Node

/-- The commands that at most `fuel` steps take off the stack, in order. -/
def poppedPending (fuel : Nat) (k : List Node) (σ : Store) : List Node :=
  match k, fuel with
  | [], _ | _ :: _, 0 => []
  | c :: k, fuel + 1 =>
    match c.step σ k with
    | .ok (k', σ') => c :: poppedPending fuel k' σ'
    | .error _ => [c]

/-- The commands that a bounded run of a command pops, in order. -/
def popped (c : Node) (fuel : Int) (σ : Store) : List Node := poppedPending fuel.toNat [c] σ

/-- A run pops its commands, whatever fuel is left over. -/
lemma Runs.poppedPending_eq {k σ cs σ'} (runs : Runs k σ cs σ') {fuel : Nat}
    (enough : cs.length ≤ fuel) : poppedPending fuel k σ = cs := by
  induction runs generalizing fuel with
  | done => rw [poppedPending]
  | @step c k σ k' σ' cs σ'' st _ ih =>
    cases fuel with
    | zero => simp at enough
    | succ fuel =>
      rw [poppedPending, st]
      exact congrArg (c :: ·) (ih (Nat.le_of_succ_le_succ enough))

/-- What a bounded run pops before it comes to an end is a run. -/
lemma runs_popped {c : Node} {fuel : Int} {σ σ' n} (final : c.run fuel σ = .ok (.final σ' n)) :
    Runs [c] σ (c.popped fuel σ) σ' ∧ (c.popped fuel σ).length = n := by
  obtain ⟨evals, enough⟩ := evals_of_final final
  obtain ⟨cs, runs, rfl⟩ := evals_iff_runs.1 evals
  rw [popped, runs.poppedPending_eq (by omega)]
  exact ⟨runs, rfl⟩

/-! ## Bounds -/

/-- The code of an expression has at most one item for each node. -/
lemma work_le_size (e : Node) : e.work ≤ e.size := by
  induction e with
  | arith _ l r ihl ihr | cmp _ l r ihl ihr | and l r ihl ihr =>
    simp only [work, size]
    omega
  | not b ih =>
    simp only [work, size]
    omega
  | _ => simp [work, size]

/-- A step costs no more than the size of its command. -/
lemma cost_le_size (c : Node) : c.cost ≤ c.size := by
  cases c with
  | assign x e =>
    have := work_le_size e
    simp only [cost, size]
    omega
  | cond b c d =>
    have := work_le_size b
    have := size_pos c
    simp only [cost, size]
    omega
  | loop b c =>
    have := work_le_size b
    have := size_pos c
    simp only [cost, size]
    omega
  | _ => exact Nat.zero_le _

/-- No command of a run is larger than those it starts with. -/
lemma Runs.size_le {k σ cs σ'} {m : Nat} (runs : Runs k σ cs σ') (small : ∀ c ∈ k, c.size ≤ m) :
    ∀ c ∈ cs, c.size ≤ m := by
  induction runs with
  | done => exact List.forall_mem_nil _
  | step st _ ih =>
    have pending := forall_pending_of_step (fun le mem => (size_child_lt mem).le.trans le) st small
    exact List.forall_mem_cons.2 ⟨small _ List.mem_cons_self, ih pending⟩

/-- The steps of compiled code are bounded by those of the source and the size of the command. -/
lemma Runs.compiledSteps_le {c : Node} {σ cs σ'} (runs : Runs [c] σ cs σ') (names : List String) :
    compiledSteps names cs ≤ 2 * names.length + 1 + cs.length * c.size := by
  have small := runs.size_le (List.forall_mem_singleton.2 le_rfl)
  have total : totalCost cs ≤ cs.length * c.size := by
    have bound := List.sum_le_card_nsmul (cs.map cost) c.size (by
      intro n mem
      obtain ⟨d, inside, rfl⟩ := List.mem_map.1 mem
      exact (cost_le_size d).trans (small d inside))
    rwa [List.length_map, Nat.nsmul_eq_mul] at bound
  rw [compiledSteps]
  omega

end Node

namespace Agreement

/-- With fuel in proportion to that of the source, the compiled side ends if the source does. -/
lemma exists_ends_within {c : Node} (ws : c.WellSorted .command) :
    ∃ σ source compiled, Ends c σ source compiled ∧ ∀ fuel fuel' : Int,
      2 * c.vars.length + 1 + fuel * c.size ≤ fuel' → endsWithin source fuel = true →
      endsWithin compiled fuel' = true := by
  by_cases ends : ∃ cs σ, Node.Runs [c] ∅ cs σ
  · obtain ⟨cs, σ, runs⟩ := ends
    refine ⟨σ, _, _, ends_of_runs ws runs, ?_⟩
    intro fuel fuel' ample ended
    have enough : (cs.length : Int) ≤ fuel := of_decide_eq_true ended
    have steps : (Node.compiledSteps c.vars cs : Int) ≤ 2 * c.vars.length + 1 + cs.length * c.size :=
      mod_cast runs.compiledSteps_le c.vars
    have scaled : (cs.length : Int) * c.size ≤ fuel * c.size :=
      Int.mul_le_mul_of_nonneg_right enough (Int.natCast_nonneg _)
    exact decide_eq_true (by omega)
  · refine ⟨∅, none, none, ends_of_not_runs ws fun cs σ runs => ends ⟨cs, σ, runs⟩, ?_⟩
    intro fuel fuel' _ ended
    cases ended

/-- Compiled code is not blamed if it ends whenever the command does. -/
lemma verdictOf_ne_compiledOutOfFuel {source compiled : Bool} (h : source = true → compiled = true) :
    verdictOf source compiled ≠ .compiledOutOfFuel := by
  cases source with
  | false => cases compiled <;> nofun
  | true =>
    rw [h rfl]
    nofun

end Agreement

/-- If a command ends, its compiled program takes exactly two steps for each variable, the costs of
the popped commands and one step for the return. The costs add up to no more than the steps of the
source times the size of the command. Hence a check that gives the compiled code fuel for that many
never finds it out of fuel where the source ended. -/
theorem compiled_steps_exact {c : Node} (ws : c.WellSorted .command) :
    (∀ (fuel : Int) (σ : Store) (n : Nat), c.run fuel ∅ = .ok (.final σ n) →
      (c.popped fuel ∅).length = n ∧ ∃ steps : Nat,
        steps = 2 * c.vars.length + 1 + ((c.popped fuel ∅).map Node.cost).sum ∧
        steps ≤ 2 * c.vars.length + 1 + n * c.size ∧
        ∀ entry, ∃ p, c.compile entry false none = .ok p ∧ ∀ fuel' : Int,
          Machine.run p entry fuel' = .ok (if steps ≤ fuel' then
              ⟨.finished (c.vars.reverse.map fun x => .int (σ.value x)) none, steps, []⟩
            else ⟨.outOfFuel, fuel'.toNat, []⟩)) ∧
    ∀ cfg : Agreement.Config, 2 * c.vars.length + 1 + cfg.sourceFuel * c.size ≤ cfg.compiledFuel →
      ∃ report, Agreement.check Agreement.compiler cfg ∅ c = .ok report ∧
        report.verdict ≠ .compiledOutOfFuel := by
  constructor
  · intro fuel σ n final
    obtain ⟨runs, length⟩ := Node.runs_popped final
    refine ⟨length, Node.compiledSteps c.vars (c.popped fuel ∅), ?_, ?_, fun entry => ?_⟩
    · rw [Node.compiledSteps, Node.totalCost, Nat.add_right_comm]
    · rw [← length]
      exact runs.compiledSteps_le c.vars
    · obtain ⟨p, compiled, _, run⟩ := (Agreement.ends_of_runs ws runs).compile entry
      refine ⟨p, compiled, fun fuel' => (run fuel').trans ?_⟩
      simp [Agreement.endsWithin]
  · intro cfg ample
    obtain ⟨σ, source, compiled, ends, within⟩ := Agreement.exists_ends_within ws
    -- without initial values nothing is put in front of the command
    have unseeded : Agreement.Ends (c.seeded ∅) σ source compiled := ends
    obtain ⟨diagnostic, checked⟩ := unseeded.check_eq ws cfg
    exact ⟨_, checked, Agreement.verdictOf_ne_compiledOutOfFuel (within _ _ ample)⟩

/-- Twenty commands are popped, some of them in a conditional in a loop. The compiled code takes
fifty-five steps, far fewer than the bound, which suffices for any check. -/
theorem countdown_steps_exact :
    countdown.WellSorted .command ∧ (countdown.popped 20 ∅).length = 20 ∧
    (∃ p, countdown.compile (.named "f") false none = .ok p ∧
      Machine.run p (.named "f") 55 = .ok ⟨.finished [.int (-2), .int 0] none, 55, []⟩ ∧
      Machine.run p (.named "f") 54 = .ok ⟨.outOfFuel, 54, []⟩) ∧
    ∃ report, Agreement.check Agreement.compiler ⟨20, 545, .named "f", true⟩ ∅ countdown = .ok report ∧
      report.verdict ≠ .compiledOutOfFuel := by
  have ws : countdown.WellSorted .command := by
    repeat constructor
  have final : countdown.run 20 ∅ = .ok (.final (Table.ofList [("n", 0), ("top", -2)]) 20) := by
    rfl
  have names : countdown.vars = ["n", "top"] := by
    decide +kernel
  obtain ⟨counted, ample⟩ := compiled_steps_exact ws
  obtain ⟨length, steps, eq, _, runs⟩ := counted _ _ _ final
  have total : steps = 55 := by
    rw [eq, names]
    rfl
  subst total
  obtain ⟨p, compiled, run⟩ := runs (.named "f")
  rw [names] at run
  refine ⟨ws, length, ⟨p, compiled, run 55, run 54⟩, ample _ ?_⟩
  rw [names]
  decide

end ImpSSA
