import ImpSSA.Proofs.Table
import ImpSSA.Proofs.Node.BigStep

/-!
# Seeding a command

A command with assignments in front of it does in two steps for each of them, one for the sequence and
one for the assignment, what it takes to get from the empty store to the assigned one
(`runPending_seeds`). From there on it runs as the command itself, only later. The literals are wrapped
to words when they are assigned, whereas a store to start from is taken as it is; so the two agree for
the store of the wrapped values (`seeding_is_starting`).
-/

namespace ImpSSA

/-- A table with `f` applied to every value. -/
def Table.mapValues {κ α β : Type} [Ord κ] (f : α → β) (t : Table κ α) : Table κ β :=
  ⟨t.entries.map fun p => (p.1, f p.2), List.pairwise_map.2 t.ascending⟩

namespace Node

/-- The outcome of a run that comes after `n` other steps. -/
def Outcome.later (n : Nat) : Outcome → Outcome
  | .final σ steps => .final σ (steps + n)
  | .diverged steps => .diverged (steps + n)

/-- Outcomes that are equal so many steps later are equal. -/
lemma Outcome.later_injective (n : Nat) : Function.Injective (later n) := by
  intro o o' eq
  cases o <;> cases o' <;> simp_all [later]

/-- Steps taken before are only counted. -/
lemma runPending_later (fuel steps n : Nat) (k : List Node) (σ : Store) :
    runPending fuel (steps + n) k σ = (runPending fuel steps k σ).map (Outcome.later n) := by
  induction fuel generalizing steps k σ with
  | zero => cases k <;> rfl
  | succ fuel ih =>
    cases k with
    | nil => rfl
    | cons c k =>
      rw [runPending, runPending]
      cases c.step σ k with
      | error e => rfl
      | ok next =>
        refine Eq.trans ?_ (ih (steps + 1) next.1 next.2)
        rw [Nat.add_right_comm]
        rfl

/-- The assignments in front of a command take two steps each, and leave the command to be run from the
store they make. -/
lemma runPending_seeds (seeds : List (String × Int)) (c : Node) (fuel steps : Nat) (σ : Store) :
    runPending (fuel + 2 * seeds.length) steps
        [sequence (seeds.map (fun p => .assign p.1 (.num p.2)) ++ [c])] σ =
      runPending fuel (steps + 2 * seeds.length) [c]
        (seeds.foldl (fun σ p => σ.insert p.1 (wrap64 p.2)) σ) := by
  induction seeds generalizing steps σ with
  | nil => rfl
  | cons p seeds ih =>
    have behind : seeds.map (fun p => .assign p.1 (.num p.2)) ++ [c] ≠ [] := by simp
    have count : steps + 2 * (seeds.length + 1) = steps + 2 + 2 * seeds.length := by omega
    rw [List.map_cons, List.cons_append, sequence_cons behind, List.foldl_cons, List.length_cons, count]
    -- the sequence and the assignment are popped
    show runPending (fuel + 2 * seeds.length) (steps + 2) _ (σ.insert p.1 (wrap64 p.2)) = _
    exact ih (steps + 2) _

/-- A seeded command runs as the command does from the store of the wrapped seeds, later by two steps
for each of them. -/
lemma run_seeded (c : Node) (initial : Store) (fuel : Nat) :
    (c.seeded initial).run (fuel + 2 * initial.entries.length : Nat) ∅ =
      (c.run fuel (initial.mapValues wrap64)).map (Outcome.later (2 * initial.entries.length)) := by
  have store : initial.entries.foldl (fun σ p => σ.insert p.1 (wrap64 p.2)) ∅ =
      initial.mapValues wrap64 := by
    rw [← Table.ofList_entries (initial.mapValues wrap64), Table.ofList, Table.mapValues, List.foldl_map]
  rw [run, run, Int.toNat_natCast, Int.toNat_natCast, ← runPending_later, ← store]
  exact runPending_seeds initial.entries c fuel 0 ∅

/-- A command with one assignment for each of the initial values in front, started from nothing, ends as
the command started from the wrapped values: in the same store, after two more steps for each value. It
runs out of fuel likewise, and does nothing else. -/
theorem seeding_is_starting {c : Node} (ws : c.WellSorted .command) (initial : Store) (fuel : Nat) :
    let seeds := initial.entries.length
    let wrapped := initial.mapValues wrap64
    (∀ σ n, c.run fuel wrapped = .ok (.final σ n) ↔
      (c.seeded initial).run (fuel + 2 * seeds : Nat) ∅ = .ok (.final σ (n + 2 * seeds))) ∧
    (c.run fuel wrapped = .ok (.diverged fuel) ↔
      (c.seeded initial).run (fuel + 2 * seeds : Nat) ∅ = .ok (.diverged (fuel + 2 * seeds))) ∧
    ((∃ σ n, c.run fuel wrapped = .ok (.final σ n)) ∨ c.run fuel wrapped = .ok (.diverged fuel)) := by
  intro seeds wrapped
  have ends (o : Outcome) : c.run fuel wrapped = .ok o ↔
      (c.seeded initial).run (fuel + 2 * seeds : Nat) ∅ = .ok (o.later (2 * seeds)) := by
    rw [run_seeded]
    cases c.run fuel wrapped with
    | error e => simp [Except.map]
    | ok o' =>
      rw [Except.map, Except.ok.injEq, Except.ok.injEq]
      exact (Outcome.later_injective _).eq_iff.symm
  refine ⟨fun σ n => ends (.final σ n), ends (.diverged fuel), ?_⟩
  by_cases ended : ∃ popped σ, Runs [c] wrapped popped σ
  · obtain ⟨popped, σ, runs⟩ := ended
    by_cases enough : (popped.length : Int) ≤ fuel
    · exact .inl ⟨σ, _, runs.run_eq enough⟩
    · exact .inr (runs.run_short (Int.not_le.1 enough))
  · exact .inr (run_of_not_runs ws fun popped σ runs => ended ⟨popped, σ, runs⟩)

/-- Seeds beyond the words on both sides: `n` is wrapped to two and `sum` to the largest word, which the
loop then exceeds. Four steps are spent on the two of them. -/
theorem summation_seeded :
    let initial : Store := Table.ofList [("sum", -9223372036854775809), ("n", 18446744073709551618)]
    let wrapped : Store := Table.ofList [("n", 2), ("sum", 9223372036854775807)]
    summation.WellSorted .command ∧ initial.mapValues wrap64 = wrapped ∧
    summation.run 10 wrapped =
      .ok (.final (Table.ofList [("n", 0), ("sum", -9223372036854775806)]) 10) ∧
    (summation.seeded initial).run 14 ∅ =
      .ok (.final (Table.ofList [("n", 0), ("sum", -9223372036854775806)]) 14) ∧
    (summation.seeded initial).run 13 ∅ = .ok (.diverged 13) := by
  intro initial wrapped
  have ws : summation.WellSorted .command := by
    repeat constructor
  have final : summation.run 10 (initial.mapValues wrap64) =
      .ok (.final (Table.ofList [("n", 0), ("sum", -9223372036854775806)]) 10) := rfl
  have spent : summation.run 9 (initial.mapValues wrap64) = .ok (.diverged 9) := rfl
  exact ⟨ws, rfl, final, ((seeding_is_starting ws initial 10).1 _ _).1 final,
    (seeding_is_starting ws initial 9).2.1.1 spent⟩

end Node

end ImpSSA
