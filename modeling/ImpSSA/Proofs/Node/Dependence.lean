import ImpSSA.Proofs.Node.BigStep
import ImpSSA.Proofs.Node.Parts

/-!
# What a run depends on and what it changes

Expressions have the same value in stores that agree on their names. So two runs of a command from such
stores take the same decisions: they pop the same commands, one for one, and their stores go on
agreeing (`Runs.agrees`). A run changes no name that is not assigned in the command (`Runs.frame`).
`run_depends_on_vars` puts this together for bounded runs.
-/

namespace ImpSSA

/-- The stores give the same values to the names. -/
def Store.AgreeOn (xs : List String) (σ τ : Store) : Prop := ∀ x ∈ xs, σ.value x = τ.value x

namespace Store.AgreeOn
variable {xs ys : List String} {σ τ : Store}

/-- Agreement is mutual. -/
lemma symm (h : AgreeOn xs σ τ) : AgreeOn xs τ σ := fun x mem => (h x mem).symm

/-- Stores that agree on names agree on fewer of them. -/
lemma mono (h : AgreeOn xs σ τ) (sub : ys ⊆ xs) : AgreeOn ys σ τ := fun x mem => h x (sub mem)

/-- Stores that agree on two lists of names agree on each of them. -/
lemma append (h : AgreeOn (xs ++ ys) σ τ) : AgreeOn xs σ τ ∧ AgreeOn ys σ τ :=
  List.forall_mem_append.1 h

/-- Stores agree after the same assignment. -/
lemma insert (h : AgreeOn xs σ τ) (x : String) (n : Int) :
    AgreeOn xs (σ.insert x n) (τ.insert x n) := by
  intro y mem
  rw [value_insert, value_insert, h y mem]

end Store.AgreeOn

namespace Node
open Store (AgreeOn)

/-- An arithmetic expression has the same value where the stores agree on its names. -/
lemma arithValue_congr {e : Node} {σ τ : Store} (agree : AgreeOn e.names σ τ) :
    e.arithValue σ = e.arithValue τ := by
  induction e with
  | var x => rw [arithValue, arithValue, agree x List.mem_cons_self]
  | arith op l r ihl ihr =>
    obtain ⟨left, right⟩ := agree.append
    rw [arithValue, arithValue, ihl left, ihr right]
  | _ => rfl

/-- A boolean expression has the same value where the stores agree on its names. -/
lemma boolValue_congr {b : Node} {σ τ : Store} (agree : AgreeOn b.names σ τ) :
    b.boolValue σ = b.boolValue τ := by
  induction b with
  | cmp op l r =>
    obtain ⟨left, right⟩ := agree.append
    rw [boolValue, boolValue, arithValue_congr left, arithValue_congr right]
  | not b ih => rw [boolValue, boolValue, ih agree]
  | and l r ihl ihr =>
    obtain ⟨left, right⟩ := agree.append
    rw [boolValue, boolValue, ihl left, ihr right]
  | _ => rfl

/-! ## One step -/

/-- A step from stores that agree on the names of its command leaves the same commands pending, and
stores that agree where they did. -/
lemma step_agrees {c : Node} {k σ τ k' σ'} {xs : List String} (st : c.step σ k = .ok (k', σ'))
    (names : c.names ⊆ xs) (agree : AgreeOn xs σ τ) :
    ∃ τ', c.step τ k = .ok (k', τ') ∧ AgreeOn xs σ' τ' := by
  cases c with
  | skip | seq =>
    cases st
    exact ⟨τ, rfl, agree⟩
  | assign x e =>
    obtain ⟨v, value, st⟩ := bind_eq_ok.1 st
    cases st
    rw [arithValue_congr (agree.mono fun y mem => names (List.mem_cons_of_mem _ mem))] at value
    exact ⟨_, bind_eq_ok.2 ⟨v, value, rfl⟩, agree.insert x v⟩
  | cond b c d =>
    obtain ⟨v, value, st⟩ := bind_eq_ok.1 st
    cases st
    have test : b.names ⊆ xs := fun y mem =>
      names (List.mem_append_left _ (List.mem_append_left _ mem))
    rw [boolValue_congr (agree.mono test)] at value
    exact ⟨τ, bind_eq_ok.2 ⟨v, value, rfl⟩, agree⟩
  | loop b c =>
    obtain ⟨v, value, st⟩ := bind_eq_ok.1 st
    cases st
    rw [boolValue_congr (agree.mono fun y mem => names (List.mem_append_left _ mem))] at value
    exact ⟨τ, bind_eq_ok.2 ⟨v, value, rfl⟩, agree⟩
  | _ => cases st

/-- A step keeps the entry of a name that its command does not assign. -/
lemma step_frame {c : Node} {k σ k' σ'} {x : String} (st : c.step σ k = .ok (k', σ')) (free : x ∉ c.assigned) :
    σ'.get? x = σ.get? x := by
  obtain rfl | ⟨y, e, n, rfl, _, rfl⟩ := store_of_step st
  · rfl
  · have ne : x ≠ y := fun eq => free (eq ▸ List.mem_cons_self)
    rw [Table.get?_insert, if_neg ne]

/-! ## Whole runs -/

/-- Runs from stores that agree on the names of all pending commands pop the same commands. -/
lemma Runs.agrees {k σ τ popped σ'} {xs : List String} (runs : Runs k σ popped σ')
    (names : ∀ c ∈ k, c.names ⊆ xs) (agree : AgreeOn xs σ τ) :
    ∃ τ', Runs k τ popped τ' ∧ AgreeOn xs σ' τ' := by
  induction runs generalizing τ with
  | done => exact ⟨τ, .done, agree⟩
  | step st _ ih =>
    obtain ⟨τ₁, st', agree₁⟩ := step_agrees st (names _ List.mem_cons_self) agree
    have pending := forall_pending_of_step
      (fun sub mem => List.Subset.trans (names_of_child mem).1 sub) st names
    obtain ⟨τ₂, runs, agree₂⟩ := ih pending agree₁
    exact ⟨τ₂, .step st' runs, agree₂⟩

/-- A run keeps the entries of names that no pending command assigns. -/
lemma Runs.frame {k σ popped σ'} {x : String} (runs : Runs k σ popped σ')
    (free : ∀ c ∈ k, x ∉ c.assigned) : σ'.get? x = σ.get? x := by
  induction runs with
  | done => rfl
  | step st _ ih =>
    have pending := forall_pending_of_step
      (fun free mem inside => free ((names_of_child mem).2.1 inside)) st free
    rw [ih pending, step_frame st (free _ List.mem_cons_self)]

/-- Runs of a command from stores that agree on its variables take the same number of steps, and come to
an end or not alike. If they do, the stores they end in agree on the variables again, and each keeps its
own entries for all names that the command does not assign. -/
theorem run_depends_on_vars {c : Node} (ws : c.WellSorted .command) (fuel : Int) {σ τ : Store}
    (agree : ∀ x ∈ c.vars, σ.value x = τ.value x) :
    (∃ n, c.run fuel σ = .ok (.diverged n) ∧ c.run fuel τ = .ok (.diverged n)) ∨
    ∃ σ' τ' n, c.run fuel σ = .ok (.final σ' n) ∧ c.run fuel τ = .ok (.final τ' n) ∧
      (∀ x ∈ c.vars, σ'.value x = τ'.value x) ∧
      ∀ x ∉ c.assigned, σ'.get? x = σ.get? x ∧ τ'.get? x = τ.get? x := by
  have names : ∀ d ∈ [c], d.names ⊆ c.vars := List.forall_mem_singleton.2 fun x => mem_vars.2
  by_cases ends : ∃ popped σ', Runs [c] σ popped σ'
  · obtain ⟨popped, σ', runs⟩ := ends
    obtain ⟨τ', runs', agree'⟩ := runs.agrees names agree
    by_cases enough : (popped.length : Int) ≤ fuel
    · refine .inr ⟨σ', τ', _, runs.run_eq enough, runs'.run_eq enough, agree', fun x free => ?_⟩
      have free : ∀ d ∈ [c], x ∉ d.assigned := List.forall_mem_singleton.2 free
      exact ⟨runs.frame free, runs'.frame free⟩
    · have short := Int.not_le.1 enough
      exact .inl ⟨_, runs.run_short short, runs'.run_short short⟩
  · -- an end of the other run would be one of this run too
    have never (popped σ') : ¬ Runs [c] σ popped σ' := fun runs => ends ⟨popped, σ', runs⟩
    refine .inl ⟨_, run_of_not_runs ws never, run_of_not_runs ws fun popped τ' runs => ?_⟩
    obtain ⟨σ', runs', _⟩ := runs.agrees names (AgreeOn.symm agree)
    exact never popped σ' runs'

/-- An entry of zero and one for a name that does not occur make no difference to the sum, and both are
kept; the run that lacks them does not make them up. -/
theorem summation_depends_on_vars :
    let σ : Store := Table.ofList [("n", 2)]
    let τ : Store := Table.ofList [("n", 2), ("none", 0), ("other", 7)]
    summation.WellSorted .command ∧ (∀ x ∈ summation.vars, σ.value x = τ.value x) ∧
    ∃ σ' τ' : Store, summation.run 10 σ = .ok (.final σ' 10) ∧ summation.run 10 τ = .ok (.final τ' 10) ∧
      σ'.value "sum" = τ'.value "sum" ∧ σ'.get? "none" = none ∧ τ'.get? "none" = some 0 ∧
      σ'.get? "other" = none ∧ τ'.get? "other" = some 7 := by
  intro σ τ
  have ws : summation.WellSorted .command := by
    repeat constructor
  have agree : ∀ x ∈ summation.vars, σ.value x = τ.value x := by decide +kernel
  have final : summation.run 10 σ = .ok (.final (Table.ofList [("n", 0), ("sum", 3)]) 10) := rfl
  refine ⟨ws, agree, ?_⟩
  obtain ⟨n, run, _⟩ | ⟨σ', τ', n, run, run', agree', kept⟩ := run_depends_on_vars ws 10 agree
  · cases final.symm.trans run
  · cases final.symm.trans run
    obtain ⟨none, none'⟩ := kept "none" (by decide)
    obtain ⟨other, other'⟩ := kept "other" (by decide)
    exact ⟨_, τ', final, run', agree' "sum" (mem_vars.2 (by decide)), none, none', other, other'⟩

end Node

end ImpSSA
