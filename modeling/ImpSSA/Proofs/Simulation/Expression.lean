import ImpSSA.Proofs.CodeGen.Numbering
import ImpSSA.Proofs.Machine.Place
import ImpSSA.Proofs.Machine.Steps
import ImpSSA.Node.Eval

/-!
# Expression code computes expressions

`Computes p s code rest n n' s'` says that the machine executes `code` in front of `rest` from `s` to
`s'`, one step for each item, and changes nothing but the registers from `n` to `n'`. The code of an
expression does so in every state in which its variables can be read, and leaves the value of the
expression in its operand (`ArithCode.exec` and `BoolCode.exec`).
-/

namespace ImpSSA
open IR

/-- Registers with lower numbers are not among those of the code. -/
lemma anon_not_mem_anons {k : Int} {n n' : Nat} (below : k < n) : Key.anon k ∉ anons n n' := by
  intro mem
  obtain ⟨i, range, eq⟩ := List.mem_map.1 mem
  cases eq
  have above := (List.Ico.mem.1 range).1
  omega

namespace Machine

/-- Within a block, nothing but the registers from `n` to `n'` differs. -/
structure Extends (n n' : Nat) (s s' : State) : Prop where
  fn : s'.pc.fn = s.pc.fn
  block : s'.pc.block = s.pc.block
  stack : s'.stack = s.stack
  memory : s'.memory = s.memory
  env : ∀ k, k ∉ anons n n' → s'.env.get? k = s.env.get? k

/-- Code is executed in front of `rest`, and changes only the registers from `n` to `n'`. -/
structure Computes (p : Program) (s : State) (code rest : List (InstrId × Item)) (n n' : Nat)
    (s' : State) : Prop where
  le : n ≤ n'
  steps : Steps p s code.length [] s'
  left : At p s'.pc rest
  frame : Extends n n' s s'

/-- The operand stands for the value, and keeps to registers below `n`. -/
inductive Leaves (env : Env) (n : Nat) : Value → Value → Prop where
  | int {m} :
    Leaves env n (.int m) (.int m)
  | bool {b} :
    Leaves env n (.bool b) (.bool b)
  | register {k : Int} {v} :
    k < n →
    env.get? (.anon k) = some v →
    Leaves env n (.register (.anon k)) v

/-- The context points to live cells that hold the values of the variables. -/
def Reads (ctx : Context) (σ : Store) (n : Nat) (s : State) (xs : List String) : Prop :=
  ∀ x ∈ xs, ∀ ptr, ctx.get? x = some ptr → ∃ a i cell,
    Leaves s.env n ptr a ∧ deref s.memory a = .ok (i, cell) ∧ cell.value = .int (σ.value x)

section
variable {p : Program} {n m n' : Nat} {s s' s'' : State} {code code' rest : List (InstrId × Item)}

/-- No steps change nothing. -/
lemma Extends.refl : Extends n n s s :=
  ⟨rfl, rfl, rfl, rfl, fun _ _ => rfl⟩

/-- Code one after the other. -/
lemma Extends.trans (h : Extends n m s s') (h' : Extends m n' s' s'') (le : n ≤ m) (le' : m ≤ n') :
    Extends n n' s s'' where
  fn := h'.fn.trans h.fn
  block := h'.block.trans h.block
  stack := h'.stack.trans h.stack
  memory := h'.memory.trans h.memory
  env k out := by
    rw [← anons_append le le', List.mem_append, not_or] at out
    exact (h'.env k out.2).trans (h.env k out.1)

/-- An operand may refer to more registers. -/
lemma Leaves.mono {env w v} (h : Leaves env n w v) (le : n ≤ n') : Leaves env n' w v := by
  cases h with
  | int => exact .int
  | bool => exact .bool
  | register below found => exact .register (by omega) found

/-- Operands below the registers that differ keep their values. -/
lemma Leaves.frame {w v} (h : Leaves s.env m w v) (ext : Extends n n' s s') (le : m ≤ n) :
    Leaves s'.env m w v := by
  cases h with
  | int => exact .int
  | bool => exact .bool
  | register below found =>
    refine .register below ?_
    rw [ext.env _ (anon_not_mem_anons (by omega)), found]

/-- An operand is evaluated to what it was left for. -/
lemma Leaves.operand {env w v} (h : Leaves env n w v) : operand p env w = .ok v := by
  cases h with
  | int => rfl
  | bool => rfl
  | register _ found =>
    rw [Machine.operand]
    · simp only [atom, found]
      rfl
    all_goals
      intros
      contradiction

/-- Code leaves variables readable. -/
lemma Reads.frame {ctx σ xs} (h : Reads ctx σ n s xs) (ext : Extends n n' s s') (le : n ≤ n') :
    Reads ctx σ n' s' xs := by
  intro x mem ptr found
  obtain ⟨a, i, cell, leaves, deref, value⟩ := h x mem ptr found
  exact ⟨a, i, cell, (leaves.frame ext le_rfl).mono le, by rw [ext.memory]; exact deref, value⟩

/-- Two lists of variables are readable if each of them is. -/
lemma reads_append {ctx σ xs ys} :
    Reads ctx σ n s (xs ++ ys) ↔ Reads ctx σ n s xs ∧ Reads ctx σ n s ys :=
  List.forall_mem_append

/-- No code takes no steps. -/
lemma Computes.nil (left : At p s.pc rest) : Computes p s [] rest n n s :=
  ⟨le_rfl, .refl, left, .refl⟩

/-- Code can be executed piece by piece. -/
lemma Computes.append (h : Computes p s code (code' ++ rest) n m s')
    (h' : Computes p s' code' rest m n' s'') : Computes p s (code ++ code') rest n n' s'' where
  le := h.le.trans h'.le
  steps := by
    rw [List.length_append]
    exact h.steps.trans_nil h'.steps
  left := h'.left
  frame := h.frame.trans h'.frame h.le h'.le

/-- An instruction with a result puts it into the next register. -/
lemma Computes.result {i v} (left : At p s.pc ((.result (.anon n), .instr i) :: rest))
    (more : rest ≠ [])
    (rule : ∀ next, InstrExec p s next i
      (.stepped { s with pc := next, env := Env.result s.env s.pc.id v } .step)) :
    ∃ s', Computes p s [(.result (.anon n), .instr i)] rest n (n + 1) s' ∧
      Leaves s'.env (n + 1) (.register (.anon n)) v := by
  obtain ⟨_, _, id⟩ := left.fetch
  obtain ⟨next, fn, block, left', exec⟩ := left.instr more
  refine ⟨_, ⟨n.le_succ, .one (exec _ (rule next)), left', fn, block, rfl, rfl, ?_⟩, ?_⟩
  · intro k out
    rw [anons_succ, List.mem_singleton] at out
    rw [id, Env.result, Table.get?_insert, if_neg out]
  · refine .register (by omega) ?_
    rw [id, Env.result, Table.get?_insert, if_pos rfl]

/-- An operator puts the result for its two operands into the next register. -/
lemma Computes.operator {i u w a b v s₁ s₂} (l : Computes p s code
      (code' ++ (.result (.anon n'), .instr i) :: rest) n m s₁) (left : Leaves s₁.env m u a)
    (r : Computes p s₁ code' ((.result (.anon n'), .instr i) :: rest) m n' s₂)
    (right : Leaves s₂.env n' w b) (more : rest ≠ [])
    (rule : ∀ next, operand p s₂.env u = .ok a → operand p s₂.env w = .ok b → InstrExec p s₂ next i
      (.stepped { s₂ with pc := next, env := Env.result s₂.env s₂.pc.id v } .step)) :
    ∃ s', Computes p s (code ++ (code' ++ [(.result (.anon n'), .instr i)])) rest n (n' + 1) s' ∧
      Leaves s'.env (n' + 1) (.register (.anon n')) v := by
  have left' := left.frame r.frame le_rfl
  obtain ⟨s', computes, result⟩ := Computes.result r.left more
    fun next => rule next left'.operand right.operand
  refine ⟨s', Computes.append ?_ (r.append computes), result⟩
  rw [List.append_assoc]
  exact l

end

end Machine

open Machine

/-- The machine's operation is the operator of the language, on words. -/
lemma binary_lower (op : ArithOp) (m n : Int) :
    binary op.lower .i64 (.int m) (.int n) = .ok (.int (wrap64 (op.apply m n))) := by
  cases op <;> rfl

/-- The machine's condition is the comparison of the language. -/
lemma comparison_lower (op : CmpOp) (m n : Int) :
    comparison op.lower (.int m) (.int n) = .ok (.bool (op.apply m n)) := by
  cases op <;> rfl

section
variable {p : Program} {ctx : Context} {σ : Store} {n n' : Nat} {s : State}
  {code rest : List (InstrId × Item)} {w : Value}

/-- The code of an arithmetic expression computes its value. -/
lemma ArithCode.exec {e} (h : ArithCode ctx n e code w n') (reads : Reads ctx σ n s e.names)
    (left : At p s.pc (code ++ rest)) (more : rest ≠ []) :
    ∃ m s', e.arithValue σ = .ok m ∧ Computes p s code rest n n' s' ∧
      Leaves s'.env n' w (.int m) := by
  induction h generalizing s rest with
  | num => exact ⟨_, s, rfl, .nil left, .int⟩
  | @var n x ptr found =>
    obtain ⟨a, i, cell, leaves, deref, value⟩ := reads x List.mem_cons_self ptr found
    obtain ⟨s', computes, result⟩ := Computes.result left more
      fun next => .load leaves.operand deref
    rw [value] at result
    exact ⟨_, s', rfl, computes, result⟩
  | @arith n n₁ n₂ op l r cl cr u w codel coder ihl ihr =>
    obtain ⟨readl, readr⟩ := reads_append.1 reads
    rw [List.append_assoc, List.append_assoc] at left
    -- the code of `r` starts where that of `l` stopped, and keeps its operand
    obtain ⟨a, s₁, vl, cl, leavesl⟩ := ihl readl left (by simp)
    obtain ⟨b, s₂, vr, cr, leavesr⟩ := ihr (readr.frame cl.frame cl.le) cl.left (by simp)
    obtain ⟨s', computes, result⟩ := Computes.operator cl leavesl cr leavesr more
      fun next hu hw => .binop hu hw (binary_lower op a b)
    exact ⟨_, s', by rw [Node.arithValue, vl, vr]; rfl, computes, result⟩

/-- The code of a boolean expression computes its value. -/
lemma BoolCode.exec {b} (h : BoolCode ctx n b code w n') (reads : Reads ctx σ n s b.names)
    (left : At p s.pc (code ++ rest)) (more : rest ≠ []) :
    ∃ v s', b.boolValue σ = .ok v ∧ Computes p s code rest n n' s' ∧
      Leaves s'.env n' w (.bool v) := by
  induction h generalizing s rest with
  | bool => exact ⟨_, s, rfl, .nil left, .bool⟩
  | @cmp n n₁ n₂ op l r cl cr u w codel coder =>
    obtain ⟨readl, readr⟩ := reads_append.1 reads
    rw [List.append_assoc, List.append_assoc] at left
    obtain ⟨a, s₁, vl, cl, leavesl⟩ := codel.exec readl left (by simp)
    obtain ⟨b, s₂, vr, cr, leavesr⟩ := coder.exec (readr.frame cl.frame cl.le) cl.left (by simp)
    obtain ⟨s', computes, result⟩ := Computes.operator cl leavesl cr leavesr more
      fun next hu hw => .icmp hu hw (comparison_lower op a b)
    exact ⟨_, s', by rw [Node.boolValue, vl, vr]; rfl, computes, result⟩
  | @not n n₁ b cb u codeb ih =>
    rw [List.append_assoc] at left
    obtain ⟨v, s₁, vb, cb, leaves⟩ := ih reads left (by simp)
    obtain ⟨s', computes, result⟩ := Computes.result (v := .bool (v != true)) cb.left more
      fun next => .binop leaves.operand (Leaves.bool (n := 0)).operand rfl
    exact ⟨_, s', by rw [Node.boolValue, vb]; cases v <;> rfl, cb.append computes, result⟩
  | @and n n₁ n₂ l r cl cr u w codel coder ihl ihr =>
    obtain ⟨readl, readr⟩ := reads_append.1 reads
    rw [List.append_assoc, List.append_assoc] at left
    obtain ⟨a, s₁, vl, cl, leavesl⟩ := ihl readl left (by simp)
    obtain ⟨b, s₂, vr, cr, leavesr⟩ := ihr (readr.frame cl.frame cl.le) cl.left (by simp)
    obtain ⟨s', computes, result⟩ := Computes.operator (v := .bool (a && b)) cl leavesl cr leavesr more
      fun next hu hw => .binop hu hw rfl
    exact ⟨_, s', by rw [Node.boolValue, vl, vr]; rfl, computes, result⟩

end

end ImpSSA
