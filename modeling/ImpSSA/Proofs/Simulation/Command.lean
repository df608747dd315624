import Mathlib.Algebra.Ring.Nat
import ImpSSA.Proofs.Node.Run
import ImpSSA.Proofs.Simulation.Layout

/-!
# Command code follows commands

`Pending L es k d` relates what stands in front of the program counter to the pending commands `k` of
the source: the code of the first command, then that of the next, with branches to merge labels and
loop heads between them. The branches that leave conditionals are paid for when the conditional is
entered; `d` counts those that are still ahead.

Every step of the source is matched by steps of the machine (`Matches.step`), and their number is the
cost of the command up to the branches ahead. Commands without code need no step, and make the pending
commands smaller instead. Hence a run of the source is followed to its end (`Matches.runs`), and
where the source has no end neither has the machine (`Matches.diverges`).
-/

namespace ImpSSA

/-- The number of nodes of an expression that are not literals. -/
def Node.work : Node → Nat
  | .var _ => 1
  | .arith _ l r | .cmp _ l r | .and l r => l.work + r.work + 1
  | .not b => b.work + 1
  | _ => 0

/-- The number of machine steps for one step of a command. -/
def Node.cost : Node → Nat
  | .assign _ e => e.work + 1
  | .cond b _ _ | .loop b _ => b.work + 2
  | _ => 0

/-- The number of machine steps for the commands of a run. -/
def Node.totalCost (popped : List Node) : Nat := (popped.map cost).sum

/-- The number of nodes of pending commands. -/
def Node.weight (k : List Node) : Nat := (k.map size).sum

/-- The code of an arithmetic expression is as long as its work. -/
lemma ArithCode.length_eq {ctx n e code w n'} (h : ArithCode ctx n e code w n') :
    code.length = e.work := by
  induction h with
  | num => rfl
  | var => rfl
  | arith _ _ ihl ihr => simp [Node.work, ihl, ihr, Nat.add_assoc]

/-- The code of a boolean expression is as long as its work. -/
lemma BoolCode.length_eq {ctx n b code w n'} (h : BoolCode ctx n b code w n') :
    code.length = b.work := by
  induction h with
  | bool => rfl
  | cmp l r => simp [Node.work, l.length_eq, r.length_eq, Nat.add_assoc]
  | not _ ih => simp [Node.work, ih]
  | and _ _ ihl ihr => simp [Node.work, ihl, ihr, Nat.add_assoc]

namespace Machine
open IR

/-- What stands in front of the program counter is the code of the pending commands, with `d`
branches to merge labels ahead. -/
inductive Pending (L : Layout) : List Elem → List Node → Nat → Prop where
  | done :
    Pending L L.last [] 0
  | command {n v n' v' c cs es k d} :
    L.first ≤ n →
    CommandCode L.context n v c cs n' v' →
    Pending L es k d →
    Pending L (cs ++ es) (c :: k) d
  | merge {v l es rest k d} :
    mark l :: es <:+ L.whole →
    Pending L es k d →
    Pending L (jump v l :: rest) k (d + 1)
  | again {u n n₁ n₂ v v' b c code w cs es rest k d} :
    L.first ≤ n →
    BoolCode L.context (n + 3) b code w n₁ →
    CommandCode L.context n₁ (v + 1) c cs n₂ v' →
    mark n :: (instrs code ++ fork v w (n + 1) (n + 2) :: mark (n + 1) ::
      (cs ++ jump v' n :: mark (n + 2) :: es)) <:+ L.whole →
    Pending L es k d →
    Pending L (jump u n :: rest) (.loop b c :: k) d

/-- The machine is where the pending commands are, and holds the store. -/
structure Matches (L : Layout) (k : List Node) (σ : Store) (s : State) (d : Nat) : Prop where
  here : s.pc.fn = L.fn
  place : ∃ es, Stands L.whole s.pc es ∧ Pending L es k d
  holds : Holds L σ s

/-- The machine follows a step of the first command. If it takes no step itself, the pending
commands get smaller. -/
def Follows (L : Layout) (c : Node) (k : List Node) (σ : Store) (s : State) (d : Nat) : Prop :=
  ∃ k' σ' m s' d', c.step σ k = .ok (k', σ') ∧ Steps L.program s m [] s' ∧ Matches L k' σ' s' d' ∧
    m + d' = c.cost + d ∧ (0 < m ∨ Node.weight k' < Node.weight (c :: k))

section
variable {L : Layout} {s : State} {σ : Store} {es rest : List Elem} {k : List Node} {d : Nat}

/-- What the counter stands at is the end of the stream. -/
lemma Stands.suffix {whole pc} (h : Stands whole pc es) : es <:+ whole := by
  obtain ⟨pre, code, eq, _⟩ := h
  exact ⟨pre ++ .label pc.block :: instrs code, by simp [eq]⟩

/-- What stands behind an element near the end of a stream is an end of it. -/
lemma suffix_behind {whole : List Elem} {e : Elem} (pre : List Elem)
    (h : pre ++ e :: rest <:+ whole) : rest <:+ whole :=
  ((List.suffix_cons e rest).trans (List.suffix_append pre _)).trans h

/-- The code of a command has an item in front if what follows has one. -/
lemma region_ne_nil_of_code {ctx n v c cs n' v'} (h : CommandCode ctx n v c cs n' v')
    (more : region es ≠ []) : region (cs ++ es) ≠ [] := by
  induction h generalizing es with
  | skip => exact more
  | assign => simp [region]
  | seq _ _ ihc ihd =>
    rw [List.append_assoc]
    exact ihc (ihd more)
  | cond => simp [fork, region]
  | loop => simp [jump, region]

/-- Pending code goes on with an item. -/
lemma Pending.region_ne_nil (h : Pending L es k d) : region es ≠ [] := by
  induction h with
  | done => exact L.ends
  | command _ code _ ih => exact region_ne_nil_of_code code ih
  | merge => simp [jump, region]
  | again => simp [jump, region]

/-- A branch goes to what stands behind its label. -/
lemma jump_exec {v l} (here : s.pc.fn = L.fn) (stands : Stands L.whole s.pc (jump v l :: rest))
    (target : mark l :: es <:+ L.whole) :
    ∃ pc, Steps L.program s 1 [] { s with pc } ∧ pc.fn = L.fn ∧ Stands L.whole pc es := by
  obtain ⟨pre, eq⟩ := target
  obtain ⟨pc, entered, fn, stands'⟩ := L.image.enter eq.symm
  have left := stands.at L.image here
  refine ⟨pc, .one (left.term (.br ?_)), fn, stands'⟩
  rw [here]
  exact entered

/-- A condition is computed and decides between two labels. -/
lemma test_exec {b code w n n' v l l'} (test : BoolCode L.context n b code w n') (le : L.first ≤ n)
    (here : s.pc.fn = L.fn) (holds : Holds L σ s)
    (stands : Stands L.whole s.pc (instrs code ++ fork v w l l' :: rest)) :
    ∃ r, b.boolValue σ = .ok r ∧ ∀ es, mark (if r then l else l') :: es <:+ L.whole →
      ∃ s', Steps L.program s (b.work + 1) [] s' ∧ s'.pc.fn = L.fn ∧ Stands L.whole s'.pc es ∧
        Holds L σ s' := by
  have left := stands.at L.image here
  rw [region_instrs] at left
  obtain ⟨r, s₁, value, computes, leaves⟩ := test.exec (holds.reads le b.names) left (by simp [fork, region])
  refine ⟨r, value, ?_⟩
  rintro es ⟨pre, eq⟩
  have here₁ : s₁.pc.fn = L.fn := computes.frame.fn.trans here
  obtain ⟨pc, entered, fn, stands'⟩ := L.image.enter eq.symm
  have forked : Steps L.program s₁ 1 [] { s₁ with pc } := by
    refine .one (computes.left.term (.condBr leaves.operand ?_))
    rw [here₁]
    cases r <;> exact entered
  refine ⟨_, ?_, fn, stands', (holds.frame computes.frame le).goto pc⟩
  rw [← test.length_eq]
  exact computes.steps.trans_nil forked

/-- An assignment computes its value and stores it. -/
lemma assign_follows {x e n n' v code w ptr} (le : L.first ≤ n)
    (arith : ArithCode L.context n e code w n') (found : L.context.get? x = some ptr)
    (pending : Pending L es k d) (here : s.pc.fn = L.fn) (holds : Holds L σ s)
    (stands : Stands L.whole s.pc
      (instrs code ++ .instr (.void v) (.instr (.store .i64 w ptr)) :: es)) :
    Follows L (.assign x e) k σ s d := by
  have left := stands.at L.image here
  rw [region_instrs] at left
  obtain ⟨m, s₁, value, computes, leaves⟩ := arith.exec (holds.reads le e.names) left (by simp [region])
  have holds₁ := holds.frame computes.frame le
  obtain ⟨pc, fn, block, left', exec⟩ := computes.left.instr pending.region_ne_nil
  obtain ⟨a, i, cell, pointer, deref, holds'⟩ := holds₁.assign found m
  have stored := exec _ (.store leaves.operand pointer.operand deref)
  refine ⟨k, σ.insert x m, _, _, d, ?_, computes.steps.trans_nil (.one stored), ⟨?_, ?_, holds' pc⟩,
    ?_, .inl (by omega)⟩
  · rw [Node.step, value]
    rfl
  · exact fn.trans (computes.frame.fn.trans here)
  · have behind := stands.advance computes.frame.block computes.left
    exact ⟨es, behind.next block left', pending⟩
  · rw [arith.length_eq, Node.cost]

/-- A conditional computes its condition and goes to one of its branches, with a branch to the merge
label ahead. -/
lemma cond_follows {b c₁ c₂ n n' v v' cs} (le : L.first ≤ n)
    (code : CommandCode L.context n v (.cond b c₁ c₂) cs n' v') (pending : Pending L es k d)
    (here : s.pc.fn = L.fn) (holds : Holds L σ s) (stands : Stands L.whole s.pc (cs ++ es)) :
    Follows L (.cond b c₁ c₂) k σ s d := by
  cases code with
  | @cond _ n₁ n₂ _ _ v₁ v₂ _ _ _ code w cs ds test code₁ code₂ =>
    simp only [List.append_assoc, List.cons_append, List.nil_append] at stands
    -- what stands behind the labels of the two branches and behind the merge label
    have at₁ := suffix_behind _ stands.suffix
    have at₂ := suffix_behind (mark n :: cs) at₁
    have merge := suffix_behind (mark (n + 1) :: ds) at₂
    have le₁ : n + 3 ≤ n₁ := (test.numbered (v := 0)).le
    have le₂ : n₁ ≤ n₂ := code₁.numbered.le
    obtain ⟨r, value, decided⟩ := test_exec test (by omega) here holds stands
    have step : Node.step σ k (.cond b c₁ c₂) = .ok ((if r then c₁ else c₂) :: k, σ) := by
      rw [Node.step, value]
      rfl
    have cost : b.work + 1 + (d + 1) = (Node.cond b c₁ c₂).cost + d := by
      rw [Node.cost]
      omega
    cases r with
    | true =>
      obtain ⟨s', steps, fn, stands', holds'⟩ := decided _ at₁
      exact ⟨_, _, _, s', _, step, steps,
        ⟨fn, ⟨_, stands', .command (by omega) code₁ (.merge merge pending)⟩, holds'⟩, cost,
        .inl (Nat.succ_pos _)⟩
    | false =>
      obtain ⟨s', steps, fn, stands', holds'⟩ := decided _ at₂
      exact ⟨_, _, _, s', _, step, steps,
        ⟨fn, ⟨_, stands', .command (by omega) code₂ (.merge merge pending)⟩, holds'⟩, cost,
        .inl (Nat.succ_pos _)⟩

/-- A loop goes to its head, computes its condition and goes to its body or to its end. -/
lemma loop_follows {b c u n n₁ n₂ v v' code w cs} (le : L.first ≤ n)
    (test : BoolCode L.context (n + 3) b code w n₁)
    (body : CommandCode L.context n₁ (v + 1) c cs n₂ v')
    (head : mark n :: (instrs code ++ fork v w (n + 1) (n + 2) :: mark (n + 1) ::
      (cs ++ jump v' n :: mark (n + 2) :: es)) <:+ L.whole)
    (pending : Pending L es k d) (here : s.pc.fn = L.fn) (holds : Holds L σ s)
    (stands : Stands L.whole s.pc (jump u n :: rest)) : Follows L (.loop b c) k σ s d := by
  -- the jump may be the one in front of the loop or the one behind its body: only the head counts
  have bodyAt := suffix_behind (mark n :: instrs code) head
  have exit := suffix_behind (mark (n + 1) :: cs) bodyAt
  have le₁ : n + 3 ≤ n₁ := (test.numbered (v := 0)).le
  obtain ⟨pc, jumped, fn, stands₁⟩ := jump_exec here stands head
  obtain ⟨r, value, decided⟩ := test_exec test (by omega) fn (holds.goto pc) stands₁
  have step : Node.step σ k (.loop b c) = .ok (if r then c :: .loop b c :: k else k, σ) := by
    rw [Node.step, value]
    rfl
  have cost : 1 + (b.work + 1) + d = (Node.loop b c).cost + d := by
    rw [Node.cost]
    omega
  cases r with
  | true =>
    obtain ⟨s', steps, fn', stands', holds'⟩ := decided _ bodyAt
    exact ⟨_, _, _, s', _, step, jumped.trans_nil steps,
      ⟨fn', ⟨_, stands', .command (by omega) body (.again le test body head pending)⟩, holds'⟩, cost,
      .inl (by omega)⟩
  | false =>
    obtain ⟨s', steps, fn', stands', holds'⟩ := decided _ exit
    exact ⟨_, _, _, s', _, step, jumped.trans_nil steps, ⟨fn', ⟨_, stands', pending⟩, holds'⟩, cost,
      .inl (by omega)⟩

/-- The code of a command follows its first step. -/
lemma command_follows {c n n' v v' cs} (le : L.first ≤ n)
    (code : CommandCode L.context n v c cs n' v') (pending : Pending L es k d)
    (here : s.pc.fn = L.fn) (holds : Holds L σ s) (stands : Stands L.whole s.pc (cs ++ es)) :
    Follows L c k σ s d := by
  cases code with
  | skip =>
    exact ⟨_, _, 0, s, d, rfl, .refl, ⟨here, ⟨_, stands, pending⟩, holds⟩, rfl,
      .inr (by simp [Node.weight, Node.size])⟩
  | assign arith found =>
    rw [List.append_assoc] at stands
    exact assign_follows le arith found pending here holds stands
  | @seq _ n₁ _ _ v₁ _ c₁ c₂ cs ds code₁ code₂ =>
    rw [List.append_assoc] at stands
    have le₁ : n ≤ n₁ := code₁.numbered.le
    exact ⟨_, _, 0, s, d, rfl, .refl,
      ⟨here, ⟨_, stands, .command le code₁ (.command (by omega) code₂ pending)⟩, holds⟩, rfl,
      .inr (by simp [Node.weight, Node.size]; omega)⟩
  | cond test code₁ code₂ => exact cond_follows le (.cond test code₁ code₂) pending here holds stands
  | loop test body =>
    simp only [List.append_assoc, List.cons_append, List.nil_append] at stands
    exact loop_follows le test body (suffix_behind [] stands.suffix) pending here holds stands

/-- The machine follows every step of the source. -/
lemma Matches.step {c} (h : Matches L (c :: k) σ s d) : Follows L c k σ s d := by
  obtain ⟨here, ⟨es, stands, pending⟩, holds⟩ := h
  generalize eq : c :: k = k₀ at pending
  induction pending generalizing s with
  | done => cases eq
  | command le code pending =>
    cases eq
    exact command_follows le code pending here holds stands
  | merge target _ ih =>
    -- the branch was paid for when its conditional was entered
    obtain ⟨pc, jumped, fn, stands'⟩ := jump_exec here stands target
    obtain ⟨k', σ', m, s', d', step, steps, rel, cost, _⟩ := ih fn (holds.goto pc) stands' eq
    exact ⟨k', σ', _, s', d', step, jumped.trans_nil steps, rel, by omega, .inl (by omega)⟩
  | again le test body head pending =>
    cases eq
    exact loop_follows le test body head pending here holds stands

/-- The machine follows a run of the source to its end. -/
lemma Matches.runs {popped σ'} (h : Matches L k σ s d) (runs : Node.Runs k σ popped σ') :
    ∃ m s' d', Steps L.program s m [] s' ∧ Matches L [] σ' s' d' ∧
      m + d' = Node.totalCost popped + d := by
  induction runs generalizing s d with
  | done => exact ⟨0, s, d, .refl, h, rfl⟩
  | step st _ ih =>
    obtain ⟨k', σ', m, s₁, d₁, st', steps, rel, cost, _⟩ := h.step
    cases st.symm.trans st'
    obtain ⟨m', s', d', steps', rel', cost'⟩ := ih rel
    refine ⟨_, s', d', steps.trans_nil steps', rel', ?_⟩
    simp only [Node.totalCost, List.map_cons, List.sum_cons] at cost' ⊢
    omega

/-- Where the source comes to no end, the machine takes any number of steps. -/
lemma Matches.diverges (h : Matches L k σ s d) (no : ∀ popped σ', ¬ Node.Runs k σ popped σ')
    (bound : Nat) : ∃ m s', bound ≤ m ∧ Steps L.program s m [] s' := by
  induction bound generalizing k σ s d with
  | zero => exact ⟨0, s, Nat.zero_le _, .refl⟩
  | succ bound ih =>
    -- commands without code cannot go on for ever, since they make the pending ones smaller
    induction size : Node.weight k using Nat.strongRecOn generalizing k σ s d with
    | ind w smaller =>
      cases k with
      | nil => exact absurd .done (no [] σ)
      | cons c k =>
        obtain ⟨k', σ', m, s₁, d₁, st, steps, rel, _, progress⟩ := h.step
        have no' : ∀ popped σ'', ¬ Node.Runs k' σ' popped σ'' :=
          fun popped σ'' runs => no _ _ (.step st runs)
        rcases progress with positive | shrinks
        · obtain ⟨m', s', le, steps'⟩ := ih rel no'
          exact ⟨m + m', s', by omega, steps.trans_nil steps'⟩
        · obtain ⟨m', s', le, steps'⟩ := smaller _ (by omega) rel no' rfl
          exact ⟨m + m', s', by omega, steps.trans_nil steps'⟩

/-- When no command is pending, the branches ahead lead to the end of the function. -/
lemma Matches.finish (h : Matches L [] σ s d) :
    ∃ s', Steps L.program s d [] s' ∧ s'.pc.fn = L.fn ∧ Stands L.whole s'.pc L.last ∧
      Holds L σ s' := by
  obtain ⟨here, ⟨es, stands, pending⟩, holds⟩ := h
  generalize eq : [] = k₀ at pending
  induction pending generalizing s with
  | done => exact ⟨s, .refl, here, stands, holds⟩
  | command => cases eq
  | @merge _ _ _ _ _ d target _ ih =>
    obtain ⟨pc, jumped, fn, stands'⟩ := jump_exec here stands target
    obtain ⟨s', steps, rest⟩ := ih fn (holds.goto pc) stands' eq
    rw [Nat.add_comm]
    exact ⟨s', jumped.trans_nil steps, rest⟩
  | again => cases eq

end

end Machine

end ImpSSA
