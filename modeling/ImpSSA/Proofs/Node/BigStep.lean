import ImpSSA.Proofs.Node.Run

/-!
# Natural semantics with a cost

`Evals c σ n σ'` says that the command `c` takes the store `σ` to `σ'` at cost `n`: one for each command,
and for each round of a loop. This is what the stack of pending commands does with a command on top,
whatever is below (`Evals.runs`, `Runs.evals`), so that the cost is the least fuel that suffices: a
bounded run ends exactly where an evaluation does that the fuel pays for (`run_exactly_evals`).
Commands with the same evaluations therefore have the same bounded runs (`run_eq_of_evals`).
-/

namespace ImpSSA.Node

/-- A command ends in a store, at a cost. -/
inductive Evals : Node → Store → Nat → Store → Prop where
  | skip {σ} :
    Evals .skip σ 1 σ
  | assign {x e σ v} :
    e.arithValue σ = .ok v →
    Evals (.assign x e) σ 1 (σ.insert x v)
  | seq {c d σ m σ' n σ''} :
    Evals c σ m σ' →
    Evals d σ' n σ'' →
    Evals (.seq c d) σ (1 + m + n) σ''
  | condTrue {b c d σ n σ'} :
    b.boolValue σ = .ok true →
    Evals c σ n σ' →
    Evals (.cond b c d) σ (1 + n) σ'
  | condFalse {b c d σ n σ'} :
    b.boolValue σ = .ok false →
    Evals d σ n σ' →
    Evals (.cond b c d) σ (1 + n) σ'
  | loopDone {b c σ} :
    b.boolValue σ = .ok false →
    Evals (.loop b c) σ 1 σ
  | loopNext {b c σ m σ' n σ''} :
    b.boolValue σ = .ok true →
    Evals c σ m σ' →
    Evals (.loop b c) σ' n σ'' →
    Evals (.loop b c) σ (1 + m + n) σ''

/-- A sequence evaluates its first command and then its second. -/
lemma evals_seq_iff {c d σ k σ''} :
    Evals (.seq c d) σ k σ'' ↔ ∃ m σ' n, Evals c σ m σ' ∧ Evals d σ' n σ'' ∧ k = 1 + m + n := by
  constructor
  · intro evals
    cases evals with
    | seq first second => exact ⟨_, _, _, first, second, rfl⟩
  · rintro ⟨m, σ', n, first, second, rfl⟩
    exact .seq first second

/-- Loops do what their bodies do. -/
lemma Evals.loop_mono {b c c' σ n σ'} (body : ∀ {σ n σ'}, Evals c σ n σ' → Evals c' σ n σ')
    (evals : Evals (.loop b c) σ n σ') : Evals (.loop b c') σ n σ' := by
  generalize e : Node.loop b c = l at evals
  induction evals with
  | loopDone value =>
    cases e
    exact .loopDone value
  | loopNext value first _ _ ih =>
    cases e
    exact .loopNext value (body first) (ih rfl)
  | _ => cases e

/-! ## Evaluations are runs -/

/-- An evaluation takes its command off the stack. -/
lemma Evals.runs {c k σ n σ' popped σ''} (evals : Evals c σ n σ') (rest : Runs k σ' popped σ'') :
    ∃ popped', Runs (c :: k) σ popped' σ'' ∧ popped'.length = n + popped.length := by
  induction evals generalizing k popped σ'' with
  | skip => exact ⟨_, .step rfl rest, by simp [Nat.add_comm]⟩
  | assign value =>
    refine ⟨_, .step ?_ rest, by simp [Nat.add_comm]⟩
    rw [Node.step, value]
    rfl
  | seq _ _ ihc ihd =>
    obtain ⟨popped₁, runs₁, length₁⟩ := ihd rest
    obtain ⟨popped₂, runs₂, length₂⟩ := ihc runs₁
    exact ⟨_, .step rfl runs₂, by simp only [List.length_cons]; omega⟩
  | condTrue value _ ih | condFalse value _ ih =>
    obtain ⟨popped₁, runs₁, length₁⟩ := ih rest
    refine ⟨_, .step ?_ runs₁, by simp only [List.length_cons]; omega⟩
    rw [Node.step, value]
    rfl
  | loopDone value =>
    refine ⟨_, .step ?_ rest, by simp [Nat.add_comm]⟩
    rw [Node.step, value]
    rfl
  | loopNext value _ _ ihc ihl =>
    obtain ⟨popped₁, runs₁, length₁⟩ := ihl rest
    obtain ⟨popped₂, runs₂, length₂⟩ := ihc runs₁
    refine ⟨_, .step ?_ runs₂, by simp only [List.length_cons]; omega⟩
    rw [Node.step, value]
    rfl

/-- A run evaluates the command on top and goes on with the others. -/
lemma Runs.evals {c k σ popped σ''} (runs : Runs (c :: k) σ popped σ'') :
    ∃ n σ' rest, Evals c σ n σ' ∧ Runs k σ' rest σ'' ∧ popped.length = n + rest.length := by
  -- the parts of a command run one after the other, so the induction is on the length of the run
  induction size : popped.length using Nat.strongRecOn generalizing c k σ popped with
  | ind size ih =>
  subst size
  cases runs with
  | @step _ _ _ k' τ popped _ st runs =>
  cases c with
  | skip =>
    cases st
    exact ⟨1, σ, popped, .skip, runs, by simp [Nat.add_comm]⟩
  | assign x e =>
    obtain ⟨v, value, st⟩ := bind_eq_ok.1 st
    cases st
    exact ⟨1, _, popped, .assign value, runs, by simp [Nat.add_comm]⟩
  | seq c d =>
    cases st
    obtain ⟨m, σ', between, first, runs₁, length₁⟩ := ih _ (by simp) runs rfl
    have shorter : between.length < popped.length + 1 := by omega
    obtain ⟨n, τ, rest, second, after, length₂⟩ := ih _ shorter runs₁ rfl
    exact ⟨_, τ, rest, .seq first second, after, by simp only [List.length_cons]; omega⟩
  | cond b c d =>
    obtain ⟨v, value, st⟩ := bind_eq_ok.1 st
    cases st
    obtain ⟨n, τ, rest, evals, after, length⟩ := ih _ (by simp) runs rfl
    cases v with
    | true => exact ⟨_, τ, rest, .condTrue value evals, after, by simp only [List.length_cons]; omega⟩
    | false => exact ⟨_, τ, rest, .condFalse value evals, after, by simp only [List.length_cons]; omega⟩
  | loop b c =>
    obtain ⟨v, value, st⟩ := bind_eq_ok.1 st
    cases v with
    | false =>
      cases st
      exact ⟨1, _, popped, .loopDone value, runs, by simp [Nat.add_comm]⟩
    | true =>
      cases st
      obtain ⟨m, σ', between, first, runs₁, length₁⟩ := ih _ (by simp) runs rfl
      have shorter : between.length < popped.length + 1 := by omega
      obtain ⟨n, τ, rest, next, after, length₂⟩ := ih _ shorter runs₁ rfl
      exact ⟨_, τ, rest, .loopNext value first next, after, by simp only [List.length_cons]; omega⟩
  | _ => cases st

/-- The cost of a command is the number of commands that are popped. -/
lemma evals_iff_runs {c σ n σ'} :
    Evals c σ n σ' ↔ ∃ popped, Runs [c] σ popped σ' ∧ popped.length = n := by
  constructor
  · intro evals
    exact evals.runs .done
  · rintro ⟨popped, runs, rfl⟩
    obtain ⟨n, τ, rest, evals, done, length⟩ := runs.evals
    cases done
    exact length ▸ evals

section
variable {c : Node} {σ σ' : Store} {n : Nat} {fuel : Int}

/-- Fuel for the cost brings an evaluation to its end. -/
lemma Evals.run_eq (evals : Evals c σ n σ') (enough : n ≤ fuel) :
    c.run fuel σ = .ok (.final σ' n) := by
  obtain ⟨popped, runs, rfl⟩ := evals_iff_runs.1 evals
  exact runs.run_eq enough

/-- Less fuel is spent. -/
lemma Evals.run_short (evals : Evals c σ n σ') (short : fuel < n) :
    c.run fuel σ = .ok (.diverged fuel.toNat) := by
  obtain ⟨popped, runs, rfl⟩ := evals_iff_runs.1 evals
  exact runs.run_short short

/-- A command without an evaluation spends any fuel. -/
lemma run_of_not_evals (ws : c.WellSorted .command) (no : ∀ n σ', ¬ Evals c σ n σ') :
    c.run fuel σ = .ok (.diverged fuel.toNat) := by
  apply run_of_not_runs ws
  intro popped σ' runs
  exact no _ σ' (evals_iff_runs.2 ⟨popped, runs, rfl⟩)

/-- A bounded run that comes to an end is an evaluation within the fuel. -/
lemma evals_of_final (final : c.run fuel σ = .ok (.final σ' n)) : Evals c σ n σ' ∧ n ≤ fuel := by
  obtain ⟨popped, runs⟩ := exists_runs_of_final final
  have evals : Evals c σ popped.length σ' := evals_iff_runs.2 ⟨popped, runs, rfl⟩
  by_cases enough : (popped.length : Int) ≤ fuel
  · cases final.symm.trans (evals.run_eq enough)
    exact ⟨evals, enough⟩
  · cases final.symm.trans (evals.run_short (Int.not_le.1 enough))

end

/-- Commands with the same evaluations have the same bounded runs. -/
lemma run_eq_of_evals {c d : Node} (wsc : c.WellSorted .command) (wsd : d.WellSorted .command)
    {σ : Store} (same : ∀ n σ', Evals c σ n σ' ↔ Evals d σ n σ') (fuel : Int) :
    c.run fuel σ = d.run fuel σ := by
  by_cases ends : ∃ n σ', Evals c σ n σ'
  · obtain ⟨n, σ', evals⟩ := ends
    have evals' := (same n σ').1 evals
    by_cases enough : (n : Int) ≤ fuel
    · rw [evals.run_eq enough, evals'.run_eq enough]
    · rw [evals.run_short (Int.not_le.1 enough), evals'.run_short (Int.not_le.1 enough)]
  · have none (n σ') : ¬ Evals c σ n σ' := fun evals => ends ⟨n, σ', evals⟩
    rw [run_of_not_evals wsc none, run_of_not_evals wsd]
    exact fun n σ' evals => none n σ' ((same n σ').2 evals)

/-- The bounded run of a command ends exactly where the natural semantics does, if the fuel is at
least the cost, and reports the cost as its steps. In every other case all of the fuel is spent. -/
theorem run_exactly_evals {c : Node} (ws : c.WellSorted .command) (σ : Store) (fuel : Int) :
    (∀ σ' n, c.run fuel σ = .ok (.final σ' n) ↔ Evals c σ n σ' ∧ n ≤ fuel) ∧
    ((¬ ∃ σ' n, Evals c σ n σ' ∧ n ≤ fuel) → c.run fuel σ = .ok (.diverged fuel.toNat)) := by
  refine ⟨fun σ' n => ⟨evals_of_final, fun ⟨evals, enough⟩ => evals.run_eq enough⟩, ?_⟩
  intro never
  by_cases ends : ∃ σ' n, Evals c σ n σ'
  · obtain ⟨σ', n, evals⟩ := ends
    apply evals.run_short
    exact Int.not_le.1 fun enough => never ⟨σ', n, evals, enough⟩
  · exact run_of_not_evals ws fun n σ' evals => ends ⟨σ', n, evals⟩

/-- Adds the numbers from `n` down to one, behind a conditional that reads an unassigned name. -/
def summation : Node :=
  .cond (.cmp .eq (.var "none") (.num 0))
    (.loop (.not (.cmp .le (.var "n") (.num 0)))
      (.seq (.assign "sum" (.arith .plus (.var "sum") (.var "n")))
        (.assign "n" (.arith .minus (.var "n") (.num 1)))))
    .skip

/-- Two rounds of the loop cost ten: with ten units of fuel the run ends on the last of them, and nine
are spent on the way. -/
theorem summation_exactly_evals :
    summation.WellSorted .command ∧
    Evals summation (Table.ofList [("n", 2)]) 10 (Table.ofList [("n", 0), ("sum", 3)]) ∧
    summation.run 10 (Table.ofList [("n", 2)]) =
      .ok (.final (Table.ofList [("n", 0), ("sum", 3)]) 10) ∧
    summation.run 9 (Table.ofList [("n", 2)]) = .ok (.diverged 9) := by
  have ws : summation.WellSorted .command := by
    repeat constructor
  have evals : Evals summation (Table.ofList [("n", 2)]) (1 + (1 + (1 + 1 + 1) + (1 + (1 + 1 + 1) + 1)))
      (Table.ofList [("n", 0), ("sum", 3)]) :=
    .condTrue rfl (.loopNext rfl (.seq (.assign rfl) (.assign rfl))
      (.loopNext rfl (.seq (.assign rfl) (.assign rfl)) (.loopDone rfl)))
  have runs (fuel : Int) := run_exactly_evals ws (Table.ofList [("n", 2)]) fuel
  have final := ((runs 10).1 _ _).2 ⟨evals, by decide⟩
  refine ⟨ws, evals, final, (runs 9).2 ?_⟩
  rintro ⟨σ', n, other, short⟩
  -- another evaluation would end with ten units of fuel too, and a run has only one end
  have final' := ((runs 10).1 σ' n).2 ⟨other, by omega⟩
  cases final.symm.trans final'
  exact absurd short (by decide)

end ImpSSA.Node
