import ImpSSA.Node.Eval
import ImpSSA.Node.WellSorted
import ImpSSA.Proofs.Control

/-!
# Runs of commands

`Runs k σ popped σ'` says that the pending commands `k`, started with `σ`, end with `σ'` after the
commands `popped` were taken off the stack. `Runs.runPending_eq` and `Runs.runPending_short` say what
bounded runs make of it: the number of popped commands is the least fuel that suffices. Well-sorted
commands that have no such run spend any fuel (`runPending_of_not_runs`).
-/

namespace ImpSSA.Node

/-- The pending commands end in a store, after the popped commands were taken off the stack. -/
inductive Runs : List Node → Store → List Node → Store → Prop where
  | done {σ} :
    Runs [] σ [] σ
  | step {c k σ k' σ' popped σ''} :
    c.step σ k = .ok (k', σ') →
    Runs k' σ' popped σ'' →
    Runs (c :: k) σ (c :: popped) σ''

/-- The commands are well sorted. -/
def Sorted (k : List Node) : Prop := ∀ c ∈ k, WellSorted .command c

/-- A command in front of others. -/
lemma sequence_cons {c : Node} {cs : List Node} (ne : cs ≠ []) :
    sequence (c :: cs) = .seq c (sequence cs) := by
  cases cs with
  | nil => exact absurd rfl ne
  | cons => rfl

/-- Commands make a command. -/
lemma sequence_wellSorted {cs : List Node} (sorted : Sorted cs) :
    (sequence cs).WellSorted .command := by
  induction cs with
  | nil => exact .skip
  | cons c cs ih =>
    obtain ⟨ws, rest⟩ := List.forall_mem_cons.1 sorted
    cases cs with
    | nil => exact ws
    | cons d cs => exact .seq ws (ih rest)

/-- An arithmetic expression has a value in every store. -/
lemma WellSorted.arithValue {e} (ws : WellSorted .arith e) (σ : Store) :
    ∃ n, e.arithValue σ = .ok n := by
  induction e with
  | num n => exact ⟨_, rfl⟩
  | var x => exact ⟨_, rfl⟩
  | arith op l r ihl ihr =>
    cases ws with
    | arith wsl wsr =>
      obtain ⟨m, eql⟩ := ihl wsl
      obtain ⟨n, eqr⟩ := ihr wsr
      exact ⟨_, by rw [Node.arithValue, eql, eqr]; rfl⟩
  | _ => cases ws

/-- A boolean expression has a value in every store. -/
lemma WellSorted.boolValue {b} (ws : WellSorted .bool b) (σ : Store) :
    ∃ v, b.boolValue σ = .ok v := by
  induction b with
  | bool b => exact ⟨_, rfl⟩
  | cmp op l r =>
    cases ws with
    | cmp wsl wsr =>
      obtain ⟨m, eql⟩ := wsl.arithValue σ
      obtain ⟨n, eqr⟩ := wsr.arithValue σ
      exact ⟨_, by rw [Node.boolValue, eql, eqr]; rfl⟩
  | not b ih =>
    cases ws with
    | not ws =>
      obtain ⟨v, eq⟩ := ih ws
      exact ⟨_, by rw [Node.boolValue, eq]; rfl⟩
  | and l r ihl ihr =>
    cases ws with
    | and wsl wsr =>
      obtain ⟨v, eql⟩ := ihl wsl
      obtain ⟨w, eqr⟩ := ihr wsr
      exact ⟨_, by rw [Node.boolValue, eql, eqr]; rfl⟩
  | _ => cases ws

/-- A well-sorted command takes its step, and what is then pending is well sorted. -/
lemma WellSorted.step {c k} (ws : WellSorted .command c) (sorted : Sorted k) (σ : Store) :
    ∃ k' σ', c.step σ k = .ok (k', σ') ∧ Sorted k' := by
  cases ws with
  | skip => exact ⟨_, _, rfl, sorted⟩
  | @assign x e ws =>
    obtain ⟨n, eq⟩ := ws.arithValue σ
    exact ⟨_, _, by rw [Node.step, eq]; rfl, sorted⟩
  | seq wsc wsd => exact ⟨_, _, rfl, List.forall_mem_cons.2 ⟨wsc, List.forall_mem_cons.2 ⟨wsd, sorted⟩⟩⟩
  | @cond b c d wsb wsc wsd =>
    obtain ⟨v, eq⟩ := wsb.boolValue σ
    refine ⟨_, _, by rw [Node.step, eq]; rfl, ?_⟩
    cases v
    · exact List.forall_mem_cons.2 ⟨wsd, sorted⟩
    · exact List.forall_mem_cons.2 ⟨wsc, sorted⟩
  | @loop b c wsb wsc =>
    obtain ⟨v, eq⟩ := wsb.boolValue σ
    refine ⟨_, _, by rw [Node.step, eq]; rfl, ?_⟩
    cases v
    · exact sorted
    · exact List.forall_mem_cons.2 ⟨wsc, List.forall_mem_cons.2 ⟨.loop wsb wsc, sorted⟩⟩

/-- What is pending after a step are parts of what was pending before: a property that passes from a
node to its children passes on to it. -/
lemma forall_pending_of_step {P : Node → Prop} (child : ∀ {n d}, P n → d ∈ n.children → P d)
    {c k σ k' σ'} (st : c.step σ k = .ok (k', σ')) (holds : ∀ d ∈ c :: k, P d) : ∀ d ∈ k', P d := by
  obtain ⟨whole, rest⟩ := List.forall_mem_cons.1 holds
  cases c with
  | skip =>
    cases st
    exact rest
  | assign x e =>
    obtain ⟨v, _, st⟩ := bind_eq_ok.1 st
    cases st
    exact rest
  | seq c d =>
    cases st
    have first : P c := child whole (by simp [children])
    have second : P d := child whole (by simp [children])
    exact List.forall_mem_cons.2 ⟨first, List.forall_mem_cons.2 ⟨second, rest⟩⟩
  | cond b c d =>
    obtain ⟨v, _, st⟩ := bind_eq_ok.1 st
    cases st
    refine List.forall_mem_cons.2 ⟨?_, rest⟩
    cases v with
    | false => exact child (d := d) whole (by simp [children])
    | true => exact child (d := c) whole (by simp [children])
  | loop b c =>
    obtain ⟨v, _, st⟩ := bind_eq_ok.1 st
    cases v with
    | false =>
      cases st
      exact rest
    | true =>
      cases st
      have body : P c := child whole (by simp [children])
      exact List.forall_mem_cons.2 ⟨body, holds⟩
  | _ => cases st

/-- A step changes the store only by an assignment. -/
lemma store_of_step {c : Node} {k σ k' σ'} (st : c.step σ k = .ok (k', σ')) :
    σ' = σ ∨ ∃ x e n, c = .assign x e ∧ e.arithValue σ = .ok n ∧ σ' = σ.insert x n := by
  cases c with
  | skip | seq =>
    cases st
    exact .inl rfl
  | assign x e =>
    obtain ⟨n, value, st⟩ := bind_eq_ok.1 st
    cases st
    exact .inr ⟨x, e, n, rfl, value, rfl⟩
  | cond | loop =>
    obtain ⟨v, _, st⟩ := bind_eq_ok.1 st
    cases st
    exact .inl rfl
  | _ => cases st

/-- Fuel for all of its commands brings a run to its end. -/
lemma Runs.runPending_eq {k σ popped σ'} (h : Runs k σ popped σ') {fuel : Nat}
    (enough : popped.length ≤ fuel) (steps : Nat) :
    runPending fuel steps k σ = .ok (.final σ' (steps + popped.length)) := by
  induction h generalizing fuel steps with
  | done =>
    rw [runPending]
    rfl
  | @step c k σ k' σ' popped σ'' st _ ih =>
    cases fuel with
    | zero => simp at enough
    | succ fuel =>
      rw [runPending, st]
      refine (ih (Nat.le_of_succ_le_succ enough) (steps + 1)).trans ?_
      rw [List.length_cons, Nat.add_assoc, Nat.add_comm 1]

/-- Less fuel is spent. -/
lemma Runs.runPending_short {k σ popped σ'} (h : Runs k σ popped σ') {fuel : Nat}
    (short : fuel < popped.length) (steps : Nat) :
    runPending fuel steps k σ = .ok (.diverged (steps + fuel)) := by
  induction h generalizing fuel steps with
  | done => cases short
  | @step c k σ k' σ' popped σ'' st _ ih =>
    cases fuel with
    | zero => rfl
    | succ fuel =>
      rw [runPending, st]
      refine (ih (Nat.lt_of_succ_lt_succ short) (steps + 1)).trans ?_
      rw [Nat.add_assoc, Nat.add_comm 1]

/-- A bounded run that comes to an end is a run. -/
lemma exists_runs_of_final {fuel steps : Nat} {k σ σ' n}
    (h : runPending fuel steps k σ = .ok (.final σ' n)) : ∃ popped, Runs k σ popped σ' := by
  induction fuel generalizing steps k σ with
  | zero =>
    cases k with
    | nil =>
      cases h
      exact ⟨[], .done⟩
    | cons c k => cases h
  | succ fuel ih =>
    cases k with
    | nil =>
      cases h
      exact ⟨[], .done⟩
    | cons c k =>
      rw [runPending] at h
      obtain ⟨⟨k', τ⟩, st, rest⟩ := bind_eq_ok.1 h
      obtain ⟨popped, runs⟩ := ih rest
      exact ⟨c :: popped, .step st runs⟩

/-- Commands without a run spend any fuel. -/
lemma runPending_of_not_runs {k σ} (sorted : Sorted k) (no : ∀ popped σ', ¬ Runs k σ popped σ')
    (fuel steps : Nat) : runPending fuel steps k σ = .ok (.diverged (steps + fuel)) := by
  induction fuel generalizing steps k σ with
  | zero =>
    cases k with
    | nil => exact absurd .done (no [] σ)
    | cons c k => rfl
  | succ fuel ih =>
    cases k with
    | nil => exact absurd .done (no [] σ)
    | cons c k =>
      obtain ⟨ws, rest⟩ := List.forall_mem_cons.1 sorted
      obtain ⟨k', τ, st, sorted'⟩ := ws.step rest σ
      rw [runPending, st]
      refine (ih sorted' (fun popped σ' runs => no _ _ (.step st runs)) (steps + 1)).trans ?_
      rw [Nat.add_assoc, Nat.add_comm 1]

section
variable {c : Node} {σ σ' : Store} {popped : List Node} {fuel : Int}

/-- A command ends with fuel for all that is popped. -/
lemma Runs.run_eq (h : Runs [c] σ popped σ') (enough : popped.length ≤ fuel) :
    c.run fuel σ = .ok (.final σ' popped.length) := by
  rw [run, h.runPending_eq (by omega), Nat.zero_add]

/-- A command is under way with less fuel. -/
lemma Runs.run_short (h : Runs [c] σ popped σ') (short : fuel < popped.length) :
    c.run fuel σ = .ok (.diverged fuel.toNat) := by
  have nonempty : 0 < popped.length := by
    cases h
    exact Nat.succ_pos _
  rw [run, h.runPending_short (by omega), Nat.zero_add]

/-- A command without a run is under way with any fuel. -/
lemma run_of_not_runs (ws : WellSorted .command c) (no : ∀ popped σ', ¬ Runs [c] σ popped σ') :
    c.run fuel σ = .ok (.diverged fuel.toNat) := by
  rw [run, runPending_of_not_runs (List.forall_mem_singleton.2 ws) no, Nat.zero_add]

end

end ImpSSA.Node
