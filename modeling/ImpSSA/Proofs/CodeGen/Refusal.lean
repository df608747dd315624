import ImpSSA.Proofs.CodeGen.Compiled
import ImpSSA.Proofs.Node.Parts

/-!
# When code is generated

`Node.refusal? ctx k n` is the first thing that lowering objects to in the tree `n`, read as one of the
category `k`: a node that does not belong where it stands, or a name without a cell. It is determined by
the tree and the context alone; the state of the generator plays no part in it
(`lowerCommand_refuses`). What is not refused is well-sorted, has its names in the context
(`refusal?_eq_none`) and is compiled. So assembly and the printing of values are never the ones to fail,
and the error of a compilation is what was refused (`compile_error_iff`).

In a well-sorted command only names are refused, and the first of them is the first of `Node.lookups`
without a cell (`refusal?_of_wellSorted`).
-/

namespace ImpSSA
open IR

/-- The error about a node that is not of the category. -/
def Category.unsupported : Category → Node → CompileError
  | .arith => .unsupportedArith
  | .bool => .unsupportedBool
  | .command => .unsupportedCommand

/-- A name is refused if it has no cell. -/
def Context.refusal? (ctx : Context) (x : String) : Option CompileError :=
  match ctx.get? x with
  | some _ => none
  | none => some (.unknownName x)

/-- What lowering refuses first in a tree that should be of the category. -/
def Node.refusal? (ctx : Context) : Category → Node → Option CompileError
  | .arith, .num _ | .bool, .bool _ | .command, .skip => none
  | .arith, .var x => ctx.refusal? x
  | .arith, .arith _ l r | .bool, .cmp _ l r => (l.refusal? ctx .arith).or (r.refusal? ctx .arith)
  | .bool, .not b => b.refusal? ctx .bool
  | .bool, .and l r => (l.refusal? ctx .bool).or (r.refusal? ctx .bool)
  | .command, .assign x e => (e.refusal? ctx .arith).or (ctx.refusal? x)
  | .command, .seq c d => (c.refusal? ctx .command).or (d.refusal? ctx .command)
  | .command, .cond b c d =>
    (b.refusal? ctx .bool).or ((c.refusal? ctx .command).or (d.refusal? ctx .command))
  | .command, .loop b c => (b.refusal? ctx .bool).or (c.refusal? ctx .command)
  | k, n => some (k.unsupported n)

/-! ## Trees that are not refused -/

section
variable {ctx : Context}

/-- A name that is not refused has a pointer. -/
lemma Context.refusal?_eq_none {x : String} (h : ctx.refusal? x = none) : ∃ p, ctx.get? x = some p := by
  unfold refusal? at h
  split at h
  · rename_i p found
    exact ⟨p, found⟩
  · cases h

/-- A name is refused because it is unknown. -/
lemma Context.refusal?_eq_some {x : String} {e : CompileError} (h : ctx.refusal? x = some e) :
    ctx.get? x = none ∧ .unknownName x = e := by
  unfold refusal? at h
  split at h
  · cases h
  · rename_i missing
    exact ⟨missing, Option.some.inj h⟩

/-- A tree in which nothing is refused is well-sorted, and its names have cells. -/
lemma refusal?_eq_none {k : Category} {n : Node} (h : n.refusal? ctx k = none) :
    n.WellSorted k ∧ ctx.Has n.names := by
  induction n generalizing k <;> cases k
  case num.arith n => exact ⟨.num n, List.forall_mem_nil _⟩
  case var.arith x => exact ⟨.var x, List.forall_mem_singleton.2 (Context.refusal?_eq_none h)⟩
  case arith.arith l r ihl ihr =>
    obtain ⟨left, right⟩ := Option.or_eq_none_iff.1 h
    obtain ⟨wsl, hasl⟩ := ihl left
    obtain ⟨wsr, hasr⟩ := ihr right
    exact ⟨.arith wsl wsr, Context.has_append.2 ⟨hasl, hasr⟩⟩
  case bool.bool b => exact ⟨.bool b, List.forall_mem_nil _⟩
  case cmp.bool l r ihl ihr =>
    obtain ⟨left, right⟩ := Option.or_eq_none_iff.1 h
    obtain ⟨wsl, hasl⟩ := ihl left
    obtain ⟨wsr, hasr⟩ := ihr right
    exact ⟨.cmp wsl wsr, Context.has_append.2 ⟨hasl, hasr⟩⟩
  case not.bool b ih =>
    obtain ⟨ws, has⟩ := ih h
    exact ⟨.not ws, has⟩
  case and.bool l r ihl ihr =>
    obtain ⟨left, right⟩ := Option.or_eq_none_iff.1 h
    obtain ⟨wsl, hasl⟩ := ihl left
    obtain ⟨wsr, hasr⟩ := ihr right
    exact ⟨.and wsl wsr, Context.has_append.2 ⟨hasl, hasr⟩⟩
  case skip.command => exact ⟨.skip, List.forall_mem_nil _⟩
  case assign.command x e ih =>
    obtain ⟨value, name⟩ := Option.or_eq_none_iff.1 h
    obtain ⟨ws, has⟩ := ih value
    exact ⟨.assign ws, List.forall_mem_cons.2 ⟨Context.refusal?_eq_none name, has⟩⟩
  case seq.command c d ihc ihd =>
    obtain ⟨first, second⟩ := Option.or_eq_none_iff.1 h
    obtain ⟨wsc, hasc⟩ := ihc first
    obtain ⟨wsd, hasd⟩ := ihd second
    exact ⟨.seq wsc wsd, Context.has_append.2 ⟨hasc, hasd⟩⟩
  case cond.command b c d ihb ihc ihd =>
    obtain ⟨test, h⟩ := Option.or_eq_none_iff.1 h
    obtain ⟨yes, no⟩ := Option.or_eq_none_iff.1 h
    obtain ⟨wsb, hasb⟩ := ihb test
    obtain ⟨wsc, hasc⟩ := ihc yes
    obtain ⟨wsd, hasd⟩ := ihd no
    exact ⟨.cond wsb wsc wsd, Context.has_append.2 ⟨Context.has_append.2 ⟨hasb, hasc⟩, hasd⟩⟩
  case loop.command b c ihb ihc =>
    obtain ⟨test, body⟩ := Option.or_eq_none_iff.1 h
    obtain ⟨wsb, hasb⟩ := ihb test
    obtain ⟨wsc, hasc⟩ := ihc body
    exact ⟨.loop wsb wsc, Context.has_append.2 ⟨hasb, hasc⟩⟩
  all_goals cases h

/-- An arithmetic expression in which nothing is refused is lowered. -/
lemma lowerArith_emits {e : Node} (h : e.refusal? ctx .arith = none) (n v : Nat) :
    ∃ es w n', Emits (e.lowerArith ctx) n v es w n' v := by
  obtain ⟨ws, has⟩ := refusal?_eq_none h
  obtain ⟨code, w, n', code_e⟩ := ArithCode.exists_code ws has n
  exact ⟨_, w, n', code_e.lower⟩

/-- A boolean expression in which nothing is refused is lowered. -/
lemma lowerBool_emits {b : Node} (h : b.refusal? ctx .bool = none) (n v : Nat) :
    ∃ es w n', Emits (b.lowerBool ctx) n v es w n' v := by
  obtain ⟨ws, has⟩ := refusal?_eq_none h
  obtain ⟨code, w, n', code_b⟩ := BoolCode.exists_code ws has n
  exact ⟨_, w, n', code_b.lower⟩

/-- A command in which nothing is refused is lowered. -/
lemma lowerCommand_emits {c : Node} (h : c.refusal? ctx .command = none) (n v : Nat) :
    ∃ es n' v', Emits (c.lowerCommand ctx) n v es () n' v' := by
  obtain ⟨ws, has⟩ := refusal?_eq_none h
  obtain ⟨es, n', v', code_c⟩ := CommandCode.exists_code ws has n v
  exact ⟨es, n', v', code_c.lower⟩

end

/-! ## Trees that are refused -/

/-- The action fails, whatever was emitted before. -/
def Refuses {α : Type} (x : Gen α) (n v : Nat) (e : CompileError) : Prop :=
  ∀ out : Array Elem, ∃ g, x.run ⟨n, v, out, false⟩ = .error e g

section
variable {α β : Type} {n n₁ v v₁ : Nat} {es : List Elem} {a : α} {e : CompileError}

/-- An error that is raised at once. -/
lemma Refuses.throw : Refuses (throw e : Gen α) n v e := fun _ => ⟨_, rfl⟩

/-- A sequence whose first part fails does so. -/
lemma Refuses.bind {x : Gen α} (h : Refuses x n v e) (f : α → Gen β) : Refuses (x >>= f) n v e := by
  intro out
  obtain ⟨g, eq⟩ := h out
  exact ⟨g, by rw [EStateM.run_bind, eq]⟩

/-- A sequence whose second part fails after the first one does so. -/
lemma Emits.refuses {x : Gen α} {f : α → Gen β} (hx : Emits x n v es a n₁ v₁)
    (hf : Refuses (f a) n₁ v₁ e) : Refuses (x >>= f) n v e := by
  intro out
  rw [hx.run_bind]
  exact hf _

end

section
variable {ctx : Context}

/-- Asking for the pointer of a name fails as the name is refused. -/
lemma pointer_refuses {x : String} {e : CompileError} (h : ctx.refusal? x = some e) (n v : Nat) :
    Refuses (ctx.pointer x) n v e := by
  obtain ⟨missing, rfl⟩ := Context.refusal?_eq_some h
  rw [Context.pointer, missing]
  exact .throw

/-- Lowering an arithmetic expression fails with what is refused first in it. -/
lemma lowerArith_refuses {a : Node} {e : CompileError} (h : a.refusal? ctx .arith = some e)
    (n v : Nat) : Refuses (a.lowerArith ctx) n v e := by
  induction a generalizing n v with
  | num => cases h
  | var x => exact (pointer_refuses h n v).bind _
  | arith op l r ihl ihr =>
    rw [Node.lowerArith]
    obtain left | ⟨left, right⟩ := Option.or_eq_some_iff.1 h
    · exact (ihl left n v).bind _
    · obtain ⟨_, _, _, emits⟩ := lowerArith_emits left n v
      apply emits.refuses
      exact (ihr right _ _).bind _
  | _ =>
    cases h
    exact .throw

/-- Lowering a boolean expression fails with what is refused first in it. -/
lemma lowerBool_refuses {b : Node} {e : CompileError} (h : b.refusal? ctx .bool = some e)
    (n v : Nat) : Refuses (b.lowerBool ctx) n v e := by
  induction b generalizing n v with
  | bool => cases h
  | cmp op l r =>
    rw [Node.lowerBool]
    obtain left | ⟨left, right⟩ := Option.or_eq_some_iff.1 h
    · exact (lowerArith_refuses left n v).bind _
    · obtain ⟨_, _, _, emits⟩ := lowerArith_emits left n v
      apply emits.refuses
      exact (lowerArith_refuses right _ _).bind _
  | not b ih =>
    rw [Node.lowerBool]
    exact (ih h n v).bind _
  | and l r ihl ihr =>
    rw [Node.lowerBool]
    obtain left | ⟨left, right⟩ := Option.or_eq_some_iff.1 h
    · exact (ihl left n v).bind _
    · obtain ⟨_, _, _, emits⟩ := lowerBool_emits left n v
      apply emits.refuses
      exact (ihr right _ _).bind _
  | _ =>
    cases h
    exact .throw

/-- Lowering a command fails with what is refused first. -/
lemma lowerCommand_refuses {c : Node} {e : CompileError} (h : c.refusal? ctx .command = some e)
    (n v : Nat) : Refuses (c.lowerCommand ctx) n v e := by
  induction c generalizing n v with
  | skip => cases h
  | assign x a =>
    rw [Node.lowerCommand]
    obtain value | ⟨value, name⟩ := Option.or_eq_some_iff.1 h
    · exact (lowerArith_refuses value n v).bind _
    · obtain ⟨_, _, _, emits⟩ := lowerArith_emits value n v
      apply emits.refuses
      exact (pointer_refuses name _ _).bind _
  | seq c d ihc ihd =>
    rw [Node.lowerCommand]
    obtain first | ⟨first, second⟩ := Option.or_eq_some_iff.1 h
    · exact (ihc first n v).bind _
    · obtain ⟨_, _, _, emits⟩ := lowerCommand_emits first n v
      apply emits.refuses
      exact ihd second _ _
  | cond b c d _ ihc ihd =>
    -- labels and terminators never fail, so the first part that does is the test or a branch
    rw [Node.lowerCommand]
    apply Emits.freshLabel.refuses
    apply Emits.freshLabel.refuses
    apply Emits.freshLabel.refuses
    obtain test | ⟨test, h⟩ := Option.or_eq_some_iff.1 h
    · exact (lowerBool_refuses test _ _).bind _
    obtain ⟨_, _, _, emits⟩ := lowerBool_emits test (n + 1 + 1 + 1) v
    apply emits.refuses
    apply Emits.terminate.refuses
    apply Emits.label.refuses
    obtain yes | ⟨yes, no⟩ := Option.or_eq_some_iff.1 h
    · exact (ihc yes _ _).bind _
    obtain ⟨_, _, _, emits⟩ := lowerCommand_emits yes _ (v + 1)
    apply emits.refuses
    apply Emits.terminate.refuses
    apply Emits.label.refuses
    exact (ihd no _ _).bind _
  | loop b c _ ihc =>
    rw [Node.lowerCommand]
    apply Emits.freshLabel.refuses
    apply Emits.freshLabel.refuses
    apply Emits.freshLabel.refuses
    apply Emits.terminate.refuses
    apply Emits.label.refuses
    obtain test | ⟨test, body⟩ := Option.or_eq_some_iff.1 h
    · exact (lowerBool_refuses test _ _).bind _
    obtain ⟨_, _, _, emits⟩ := lowerBool_emits test (n + 1 + 1 + 1) (v + 1)
    apply emits.refuses
    apply Emits.terminate.refuses
    apply Emits.label.refuses
    exact (ihc body _ _).bind _
  | _ =>
    cases h
    exact .throw

end

/-! ## Compilation -/

section
variable {c : Node} {entry : Key} {prints : Bool} {declared : Option (List String)}

/-- A compilation fails with what is refused first. -/
lemma compile_of_refusal {e : CompileError}
    (h : c.refusal? (storageContext 1 (c.storage declared)) .command = some e) :
    c.compile entry prints declared = .error e := by
  have refuses : Refuses (c.generate prints (c.storage declared)) 1 1 e :=
    (lower_storage _).refuses ((lowerCommand_refuses h _ _).bind _)
  obtain ⟨g, eq⟩ := refuses #[]
  rw [Node.compile, CodeGen.start, eq]
  rfl

/-- The names of a context that was made for storage are stored. -/
lemma mem_of_storageContext_has {n : Nat} {xs names : List String}
    (has : (storageContext n xs).Has names) {x : String} (mem : x ∈ names) : x ∈ xs := by
  obtain ⟨p, found⟩ := has x mem
  obtain ⟨ys, zs, rfl, _⟩ := of_get?_storageContext found
  exact List.mem_append_right _ List.mem_cons_self

/-- A command in which nothing is refused is well-sorted, and the declared names contain its
variables. -/
lemma admits_of_refusal
    (h : c.refusal? (storageContext 1 (c.storage declared)) .command = none) :
    c.WellSorted .command ∧ c.Admits declared := by
  obtain ⟨ws, has⟩ := refusal?_eq_none h
  refine ⟨ws, ?_⟩
  cases declared with
  | none => trivial
  | some declared =>
    intro x mem
    exact Node.mem_sortNames.1 (mem_of_storageContext_has has (Node.mem_vars.1 mem))

/-- A command that is compiled is well-sorted, and the declared names contain its variables. -/
lemma compile_inv {p : Program} (h : c.compile entry prints declared = .ok p) :
    c.WellSorted .command ∧ c.Admits declared := by
  cases eq : c.refusal? (storageContext 1 (c.storage declared)) .command with
  | none => exact admits_of_refusal eq
  | some e => cases h.symm.trans (compile_of_refusal eq)

/-- A compilation fails exactly with what is refused. -/
lemma compile_error_iff {e : CompileError} :
    c.compile entry prints declared = .error e ↔
      c.refusal? (storageContext 1 (c.storage declared)) .command = some e := by
  refine ⟨fun fails => ?_, compile_of_refusal⟩
  cases eq : c.refusal? (storageContext 1 (c.storage declared)) .command with
  | none =>
    obtain ⟨ws, admits⟩ := admits_of_refusal eq
    obtain ⟨p, compiled, _⟩ := exists_compiled ws entry prints admits
    cases fails.symm.trans compiled
  | some e' =>
    cases fails.symm.trans (compile_of_refusal eq)
    rfl

end

/-! ## What is blamed -/

/-- What an error says of a tree is so: the name occurs in it and is not stored, or the node occurs in
it and is foreign or of another category. -/
inductive CompileError.Blames (stored : List String) (c : Node) : CompileError → Prop where
  | unknownName {x} :
    x ∈ c.names → x ∉ stored →
    Blames stored c (.unknownName x)
  | misplaced {k : Category} {n : Node} :
    n.Within c → (n.category ≠ k ∨ ∃ k', n = .foreign k') →
    Blames stored c (k.unsupported n)

/-- What an error says of a part it says of the whole. -/
lemma CompileError.Blames.child {stored : List String} {n d : Node} {e : CompileError}
    (h : Blames stored d e) (mem : d ∈ n.children) : Blames stored n e := by
  cases h with
  | unknownName inside missing => exact .unknownName ((Node.names_of_child mem).1 inside) missing
  | misplaced within misfit => exact .misplaced (.child mem within) misfit

section
variable {ctx : Context} {k : Category} {n : Node}

/-- What is refused in a tree is wrong with it. -/
lemma refusal?_blames {stored : List String} {e : CompileError}
    (missing : ∀ x, ctx.get? x = none → x ∉ stored) (h : n.refusal? ctx k = some e) :
    e.Blames stored n := by
  have named {x : String} {n : Node} (inside : x ∈ n.names) (h : ctx.refusal? x = some e) :
      e.Blames stored n := by
    obtain ⟨none, rfl⟩ := Context.refusal?_eq_some h
    exact .unknownName inside (missing x none)
  induction n generalizing k <;> cases k
  case num.arith | bool.bool | skip.command => cases h
  case var.arith => exact named List.mem_cons_self h
  case not.bool b ih => exact (ih h).child List.mem_cons_self
  case arith.arith ihl ihr | cmp.bool ihl ihr | and.bool ihl ihr | seq.command ihl ihr |
      loop.command ihl ihr =>
    obtain left | ⟨_, right⟩ := Option.or_eq_some_iff.1 h
    · exact (ihl left).child (by simp [Node.children])
    · exact (ihr right).child (by simp [Node.children])
  case assign.command ih =>
    obtain value | ⟨_, name⟩ := Option.or_eq_some_iff.1 h
    · exact (ih value).child (by simp [Node.children])
    · exact named List.mem_cons_self name
  case cond.command ihb ihc ihd =>
    obtain test | ⟨_, h⟩ := Option.or_eq_some_iff.1 h
    · exact (ihb test).child (by simp [Node.children])
    obtain yes | ⟨_, no⟩ := Option.or_eq_some_iff.1 h
    · exact (ihc yes).child (by simp [Node.children])
    · exact (ihd no).child (by simp [Node.children])
  case foreign.arith | foreign.bool | foreign.command =>
    cases h
    exact .misplaced .self (.inr ⟨_, rfl⟩)
  all_goals
    cases h
    exact .misplaced .self (.inl (by simp [Node.category]))

/-- A refused name is one without a pointer. -/
lemma Context.refusal?_eq (ctx : Context) (x : String) :
    ctx.refusal? x = ([x].find? fun x => (ctx.get? x).isNone).map .unknownName := by
  unfold refusal?
  cases found : ctx.get? x <;> simp [found]

/-- In a well-sorted tree the first name without a cell is refused. -/
lemma refusal?_of_wellSorted (ws : n.WellSorted k) :
    n.refusal? ctx k = (n.lookups.find? fun x => (ctx.get? x).isNone).map .unknownName := by
  induction ws with
  | num | bool | skip => rfl
  | var x => exact ctx.refusal?_eq x
  | not _ ih => exact ih
  | arith _ _ ihl ihr | cmp _ _ ihl ihr | and _ _ ihl ihr | seq _ _ ihl ihr | loop _ _ ihl ihr =>
    rw [Node.refusal?, ihl, ihr, Node.lookups, List.find?_append, Option.map_or]
  | assign _ ih =>
    rw [Node.refusal?, ih, ctx.refusal?_eq, Node.lookups, List.find?_append, Option.map_or]
  | cond _ _ _ ihb ihc ihd =>
    rw [Node.refusal?, ihb, ihc, ihd, Node.lookups, List.append_assoc, List.find?_append,
      List.find?_append, Option.map_or, Option.map_or]

end

/-- The context of storage has no other names. -/
lemma isNone_storageContext (n : Nat) (xs : List String) (x : String) :
    ((storageContext n xs).get? x).isNone = decide (x ∉ xs) := by
  by_cases mem : x ∈ xs
  · obtain ⟨p, found⟩ := storageContext_has n xs x mem
    simp [found, mem]
  · cases found : (storageContext n xs).get? x with
    | none => simp [mem]
    | some p =>
      obtain ⟨ys, zs, rfl, _⟩ := of_get?_storageContext found
      simp at mem

section
variable {c : Node} {entry : Key} {prints : Bool} {declared : Option (List String)}

/-- A command is admitted if no names are declared or all of its variables are. -/
lemma Node.admits_iff :
    c.Admits declared ↔ ∀ names, declared = some names → ∀ x ∈ c.vars, x ∈ names := by
  cases declared with
  | none => exact ⟨nofun, fun _ => trivial⟩
  | some names =>
    refine ⟨fun admits names' eq => ?_, fun all => all names rfl⟩
    cases eq
    exact admits

/-- Compilation succeeds for the well-sorted commands whose variables are declared. -/
lemma exists_compile_iff :
    (∃ p, c.compile entry prints declared = .ok p) ↔ c.WellSorted .command ∧ c.Admits declared := by
  constructor
  · rintro ⟨p, compiled⟩
    exact compile_inv compiled
  · rintro ⟨ws, admits⟩
    obtain ⟨p, compiled, _⟩ := exists_compiled ws entry prints admits
    exact ⟨p, compiled⟩

/-- The compilation of a well-sorted command fails with the first name that is not declared. -/
lemma first_undeclared {e : CompileError} (ws : c.WellSorted .command)
    (fails : c.compile entry prints declared = .error e) :
    ∃ names x, declared = some names ∧ c.lookups.find? (· ∉ names) = some x ∧ .unknownName x = e := by
  have refused := compile_error_iff.1 fails
  rw [refusal?_of_wellSorted ws] at refused
  obtain ⟨x, first, eq⟩ := Option.map_eq_some_iff.1 refused
  simp only [isNone_storageContext] at first
  cases declared with
  | none =>
    -- all names of the command are stored, so none of them is missing
    have missing := List.find?_some first
    have stored := Node.mem_vars.2 (Node.mem_lookups.1 (List.mem_of_find?_eq_some first))
    simp [Node.storage, stored] at missing
  | some names =>
    simp only [Node.storage, Node.mem_sortNames] at first
    exact ⟨names, x, rfl, first, eq⟩

end

/-- Compilation fails exactly for trees that are not well-sorted commands and for commands with a
variable that is not declared. It fails for a reason that is there: with a node that does not belong
where it stands, or with a name that is not stored. For a well-sorted command that is the first
undeclared name in the order of `Node.lookups`. -/
theorem compile_fails_exactly (c : Node) (entry : Key) (prints : Bool)
    (declared : Option (List String)) :
    ((∃ e, c.compile entry prints declared = .error e) ↔
      ¬ c.WellSorted .command ∨ ∃ names, declared = some names ∧ ∃ x ∈ c.vars, x ∉ names) ∧
    ((∃ p, c.compile entry prints declared = .ok p) ↔
      c.WellSorted .command ∧ ∀ names, declared = some names → ∀ x ∈ c.vars, x ∈ names) ∧
    (∀ e, c.compile entry prints declared = .error e → e.Blames (c.storage declared) c) ∧
    (c.WellSorted .command → ∀ e, c.compile entry prints declared = .error e →
      ∃ names x, declared = some names ∧ c.lookups.find? (· ∉ names) = some x ∧
        e.message = "identifier not found: " ++ x) := by
  have compiles : (∃ p, c.compile entry prints declared = .ok p) ↔
      c.WellSorted .command ∧ ∀ names, declared = some names → ∀ x ∈ c.vars, x ∈ names := by
    rw [exists_compile_iff, Node.admits_iff]
  have fails : (∃ e, c.compile entry prints declared = .error e) ↔
      ¬ ∃ p, c.compile entry prints declared = .ok p := by
    cases c.compile entry prints declared <;> simp
  refine ⟨?_, compiles, ?_, ?_⟩
  · rw [fails, compiles, not_and_or]
    simp only [not_forall, exists_prop]
  · intro e error
    refine refusal?_blames (fun x missing => ?_) (compile_error_iff.1 error)
    simpa [missing] using isNone_storageContext 1 (c.storage declared) x
  · intro ws e error
    obtain ⟨names, x, eq, first, rfl⟩ := first_undeclared ws error
    exact ⟨names, x, eq, first, rfl⟩

/-- A command where an expression belongs, inside of a loop and a branch that are never executed. -/
def deadMisfit : Node := .cond (.bool true) .skip (.loop (.bool false) (.assign "X" .skip))

/-- Reads `X` and `B` to assign `A`. -/
def addInto : Node := .seq .skip (.assign "A" (.arith .plus (.var "X") (.var "B")))

/-- Code that is never executed is refused too. Of two names that are not declared the one that is read
is reported, although the other one is written first. -/
theorem deadMisfit_fails :
    (∃ e, deadMisfit.compile (.named "main") true none = .error e ∧ e.Blames ["X"] deadMisfit) ∧
    addInto.WellSorted .command ∧
    ∃ e, addInto.compile (.named "main") true (some ["X"]) = .error e ∧
      e.message = "identifier not found: B" := by
  constructor
  · have misfit : ¬ deadMisfit.WellSorted .command := by
      intro ws
      cases ws with
      | cond _ _ dead =>
      cases dead with
      | loop _ body =>
      cases body with
      | assign value => cases value
    obtain ⟨fails, _, blames, _⟩ := compile_fails_exactly deadMisfit (.named "main") true none
    obtain ⟨e, error⟩ := fails.2 (.inl misfit)
    have storage : deadMisfit.storage none = ["X"] := by decide +kernel
    exact ⟨e, error, storage ▸ blames e error⟩
  · have ws : addInto.WellSorted .command := by
      repeat constructor
    obtain ⟨fails, _, _, first⟩ := compile_fails_exactly addInto (.named "main") true (some ["X"])
    obtain ⟨e, error⟩ := fails.2 (.inr ⟨_, rfl, "A", Node.mem_vars.2 (by decide), by decide⟩)
    obtain ⟨names, x, eq, found, message⟩ := first ws e error
    cases eq
    cases (show addInto.lookups.find? (· ∉ ["X"]) = some "B" from rfl).symm.trans found
    exact ⟨ws, e, error, message⟩

end ImpSSA
