import ImpSSA.Proofs.Machine.Rules

/-!
# Where errors come from

`Tame watched x` says that `x` fails with none of the watched errors. Operands, arithmetic, callees
and returns only raise faults about the values at hand, so they are tame wherever such faults are
not watched. What is left of a step is the dereferencing of pointers, the search for a function and
the entering of a block: `execInstr_tame` and `execTerm_tame` reduce a step to these.
-/

namespace ImpSSA.Machine
open IR

/-- A computation with none of the watched errors. -/
def Tame {ε α : Type} (watched : ε → Bool) (x : Except ε α) : Prop :=
  ∀ e, x = .error e → watched e = false

section
variable {ε α β : Type} {watched : ε → Bool}

/-- A result is no error. -/
lemma Tame.ok (a : α) : Tame watched (.ok a : Except ε α) := nofun

/-- An error that is not watched for. -/
lemma Tame.error {e : ε} (h : watched e = false) : Tame watched (.error e : Except ε α) := by
  intro e' eq
  cases eq
  exact h

/-- Tame computations one after the other. -/
lemma Tame.bind {x : Except ε α} {f : α → Except ε β} (hx : Tame watched x)
    (hf : ∀ a, x = .ok a → Tame watched (f a)) : Tame watched (x >>= f) := by
  intro e eq
  rcases bind_eq_error.1 eq with eq | ⟨a, ok, eq⟩
  · exact hx e eq
  · exact hf a ok e eq

end

/-- The faults that are watched when `watched` errors are. -/
def Stop.faults (watched : Stop → Bool) (f : Fault) : Bool := watched (.fault f)

/-- A tame computation as part of a step. -/
lemma Tame.faulty {α : Type} {watched : Stop → Bool} {x : Except Fault α}
    (h : Tame (Stop.faults watched) x) : Tame watched (faulty x) := by
  intro e eq
  obtain ⟨f, failed, rfl⟩ := faulty_eq_error.1 eq
  exact h f failed

/-- The faults about the values at hand, whatever the program and memory are. -/
def Fault.ofValues : Fault → Bool
  | .unknownBlock .. | .invalidCounter .. | .unknownFunction _ => false
  | .nonPointer _ | .foreignPointer _ | .stalePointer _ => false
  | _ => true

section
variable {watched : Fault → Bool} (spares : ∀ f, f.ofValues = true → watched f = false)
include spares

/-- Arithmetic blames only the values at hand. -/
lemma intResult_tame (op : BinaryOp) (a b : Int) : Tame watched (intResult op a b) := by
  unfold intResult
  split
  case h_4 | h_5 =>
    split
    · exact .error (spares _ rfl)
    · exact .ok _
  case h_9 => exact .error (spares _ rfl)
  all_goals exact .ok _

/-- A binary operation blames only the values at hand. -/
lemma binary_tame (op : BinaryOp) (ty : Ty) (u v : Value) : Tame watched (binary op ty u v) := by
  unfold binary
  split
  · exact .error (spares _ rfl)
  · exact .ok _
  · exact .ok _
  · exact .ok _
  · exact .bind (intResult_tame spares _ _ _) fun _ _ => .ok _
  · exact .error (spares _ rfl)

/-- A comparison blames only the values at hand. -/
lemma comparison_tame (c : Condition) (u v : Value) : Tame watched (comparison c u v) := by
  unfold comparison
  split
  case h_1 | h_10 => exact .error (spares _ rfl)
  all_goals exact .ok _

/-- An operand without parts blames only the values at hand. -/
lemma atom_tame (p : Program) (env : Env) (v : Value) : Tame watched (atom p env v) := by
  unfold atom
  split
  · split
    · exact .ok _
    · exact .error (spares _ rfl)
  · split
    · exact .ok _
    · exact .error (spares _ rfl)
  case h_3 | h_4 | h_5 | h_6 | h_7 => exact .error (spares _ rfl)
  all_goals exact .ok _

/-- Indices blame only the values at hand. -/
lemma checkIndices_tame (p : Program) (env : Env) (is : List Value) :
    Tame watched (checkIndices p env is) := by
  induction is with
  | nil => exact .ok _
  | cons i is ih =>
    refine .bind (atom_tame spares p env i) fun v _ => ?_
    split
    · exact ih
    · exact .error (spares _ rfl)

/-- Operands blame registers, functions and values only. -/
lemma operand_tame (p : Program) (env : Env) (v : Value) : Tame watched (operand p env v) := by
  unfold operand
  split
  · refine .bind (atom_tame spares p env _) fun a _ => ?_
    refine .bind (atom_tame spares p env _) fun b _ => ?_
    exact binary_tame spares _ _ _ _
  · refine .bind (atom_tame spares p env _) fun a _ => ?_
    refine .bind (atom_tame spares p env _) fun b _ => ?_
    exact comparison_tame spares _ _ _
  · refine .bind (atom_tame spares p env _) fun a _ => ?_
    split
    · exact .bind (checkIndices_tame spares p env _) fun _ _ => .ok _
    · exact .error (spares _ rfl)
  · exact atom_tame spares p env _

/-- Arguments blame only the values at hand. -/
lemma operands_tame (p : Program) (env : Env) (args : List (Ty × Value)) :
    Tame watched (args.mapM fun (_, v) => operand p env v) := by
  induction args with
  | nil => exact .ok _
  | cons a args ih =>
    rw [List.mapM_cons]
    exact .bind (operand_tame spares p env _) fun _ _ => .bind ih fun _ _ => .ok _

/-- The callee of a call blames only the values at hand. -/
lemma callee_tame (p : Program) (env : Env) (f : Value) : Tame watched (callee p env f) := by
  unfold callee
  split
  · exact .ok _
  · refine .bind (operand_tame spares p env _) fun v _ => ?_
    split
    · exact .ok _
    · exact .error (spares _ rfl)

/-- A return blames only the values at hand. -/
lemma execReturn_tame (s : State) (v : Option Value) : Tame watched (execReturn s v) := by
  unfold execReturn
  split
  · exact .ok _
  · split
    · exact .ok _
    · exact .ok _
    · exact .error (spares _ rfl)

/-- A terminator is tame if the blocks it goes to can be entered. -/
lemma execTerm_tame {p s t} (enters : ∀ l ∈ t.targets, Tame watched (enter p s.pc.fn l)) :
    Tame watched (execTerm p s t) := by
  cases t with
  | br target => exact .bind (enters target (by simp [Term.targets])) fun _ _ => .ok _
  | condBr c t e =>
    refine .bind (operand_tame spares p s.env c) fun v cond => ?_
    split
    · rename_i b
      have target : (if b then t else e) ∈ (Term.condBr c t e).targets := by
        cases b <;> simp [Term.targets]
      exact .bind (enters _ target) fun _ _ => .ok _
    · exact .error (spares _ rfl)
  | retVoid => exact execReturn_tame spares s none
  | ret ty v => exact .bind (operand_tame spares p s.env v) fun w _ => execReturn_tame spares s _
  | foreign => exact .error (spares _ rfl)

end

/-- An instruction is tame if the pointers it can get at are, and if the call it may be is. -/
lemma execInstr_tame {watched : Stop → Bool} {p s next i}
    (spares : ∀ f, f.ofValues = true → watched (.fault f) = false)
    (reads : ∀ v w, operand p s.env v = .ok w → Tame (Stop.faults watched) (deref s.memory w))
    (calls : ∀ ty f args, i = .call ty f args → Tame watched (execCall p s next f args)) :
    Tame watched (execInstr p s next i) := by
  cases i with
  | binop op ty l r =>
    refine .bind (operand_tame spares p s.env l).faulty fun u _ => ?_
    refine .bind (operand_tame spares p s.env r).faulty fun v _ => ?_
    exact .bind (binary_tame spares op ty u v).faulty fun w _ => .ok _
  | icmp c ty l r =>
    refine .bind (operand_tame spares p s.env l).faulty fun u _ => ?_
    refine .bind (operand_tame spares p s.env r).faulty fun v _ => ?_
    exact .bind (comparison_tame spares c u v).faulty fun w _ => .ok _
  | alloca ty => exact .ok _
  | load ty ptr =>
    refine .bind (operand_tame spares p s.env ptr).faulty fun v hv => ?_
    exact .bind (reads _ _ (faulty_eq_ok.1 hv)).faulty fun _ _ => .ok _
  | store ty value ptr =>
    refine .bind (operand_tame spares p s.env value).faulty fun u _ => ?_
    refine .bind (operand_tame spares p s.env ptr).faulty fun v hv => ?_
    exact .bind (reads _ _ (faulty_eq_ok.1 hv)).faulty fun _ _ => .ok _
  | call ty f args => exact calls ty f args rfl
  | foreign => exact .error (spares _ rfl)

end ImpSSA.Machine
