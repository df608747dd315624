import Mathlib.Data.List.Forall2
import ImpSSA.Assembly.Export
import ImpSSA.Proofs.CodeGen.Scoping

/-!
# The export of typed code

`Mirrors Γ x y` says that an instruction `y` of the assembly does what an item `x` does: it has the same
operator, which went through the names of the builder's methods and signs and back (`opcode?_method?`,
`signed?_sign?`), registers keep their keys in their names, literals are constants of the same value, and
branches go to the blocks named after the labels. The types `Γ` give every register one type, that of the
item that defines it and of all its uses.

An item is exported to its mirror if its registers are known and the name of its result is free. The export
goes through blocks in order and not along branches, so `Ready Γ labels es s` asks this of the whole stream
`es` that is still to come. One item keeps it (`Ready.lowerItem`), hence so do code and blocks
(`Ready.lowerBlocks`), and a whole definition is exported (`Exportable.defineFunction`).
-/

namespace ImpSSA

namespace IR

/-- The register that takes the result of an element. -/
def Elem.result? : Elem → Option Key
  | .instr i _ | .term i _ => i.register?
  | .label _ | .foreign => none

/-- The registers that an element refers to. -/
def Elem.registers : Elem → List Key
  | .instr _ x | .term _ x => x.registers
  | .label _ | .foreign => []

/-- Registers are known before they are referred to, as the stream is written. -/
def Ordered : (Key → Prop) → List Elem → Prop
  | _, [] => True
  | known, e :: es =>
    (∀ k ∈ e.registers, known k) ∧ Ordered (fun k => known k ∨ e.result? = some k) es

/-- More may be known at the front. -/
lemma Ordered.mono {known known' : Key → Prop} {es : List Elem} (h : Ordered known es)
    (le : ∀ k, known k → known' k) : Ordered known' es := by
  induction es generalizing known known' with
  | nil => trivial
  | cons e es ih => exact ⟨fun k mem => le k (h.1 k mem), ih h.2 fun k => Or.imp_left (le k)⟩

/-- A stream behind another may refer to the results of both. -/
lemma Ordered.append {known : Key → Prop} {es es' : List Elem} (h : Ordered known es)
    (h' : Ordered (fun k => known k ∨ k ∈ es.filterMap Elem.result?) es') :
    Ordered known (es ++ es') := by
  induction es generalizing known with
  | nil => exact h'.mono (by simp)
  | cons e es ih =>
    refine ⟨h.1, ih h.2 (h'.mono fun k => ?_)⟩
    rintro (old | result)
    · exact .inl (.inl old)
    · obtain ⟨e', mem, eq⟩ := List.mem_filterMap.1 result
      rcases List.mem_cons.1 mem with rfl | mem
      · exact .inl (.inr eq)
      · exact .inr (List.mem_filterMap.2 ⟨e', mem, eq⟩)

end IR

namespace Assembly
open IR (Key InstrId Item Elem instrs stream)

/-- The name of the result of a register. -/
def registerName (k : Key) : String := "v" ++ k.text

/-- The name of the block of a label. -/
def blockName (label : Key) : String := "b" ++ label.text

/-- Types of registers and of functions. -/
structure Types where
  register : Key → Ty
  function : Key → Option (Ty × List Ty)

/-- The operand that a value of a type becomes. -/
inductive MirrorsValue (Γ : Types) : Ty → IR.Value → Operand → Prop where
  | int {w n} :
    MirrorsValue Γ (.int w) (.int n) (.constant (.int w) (.int n))
  | bool {b} :
    MirrorsValue Γ (.int 1) (.bool b) (.constant (.int 1) (.int (if b then 1 else 0)))
  | register {t k} :
    Γ.register k = t →
    MirrorsValue Γ t (.register k) (.register t (registerName k))

/-- The operands that arguments become, and their types. -/
inductive MirrorsArgs (Γ : Types) : List (IR.Ty × IR.Value) → List Ty → List Operand → Prop where
  | nil :
    MirrorsArgs Γ [] [] []
  | cons {ty w v x args ts xs} :
    convert ty = .ok (.int w) →
    MirrorsValue Γ (.int w) v x →
    MirrorsArgs Γ args ts xs →
    MirrorsArgs Γ ((ty, v) :: args) (.int w :: ts) (x :: xs)

/-- What an item does in the assembly, and the type of its result. -/
inductive MirrorsItem (Γ : Types) : Item → Ty → Action → Prop where
  | binop {op ty w l r x y} :
    op ∈ IR.BinaryOp.all →
    convert ty = .ok (.int w) →
    MirrorsValue Γ (.int w) l x →
    MirrorsValue Γ (.int w) r y →
    MirrorsItem Γ (.instr (.binop op ty l r)) (.int w) (.binary op x y)
  | icmp {c ty w l r x y} :
    c ∈ IR.Condition.all →
    convert ty = .ok (.int w) →
    MirrorsValue Γ (.int w) l x →
    MirrorsValue Γ (.int w) r y →
    MirrorsItem Γ (.instr (.icmp c ty l r)) (.int 1) (.icmp c x y)
  | alloca {ty w} :
    convert ty = .ok (.int w) →
    MirrorsItem Γ (.instr (.alloca ty)) (.ptr (.int w)) (.alloca (.int w))
  | load {ty w p x} :
    convert ty = .ok (.int w) →
    MirrorsValue Γ (.ptr (.int w)) p x →
    MirrorsItem Γ (.instr (.load ty p)) (.int w) (.load (.int w) x)
  | store {ty w v p x y} :
    convert ty = .ok (.int w) →
    MirrorsValue Γ (.int w) v x →
    MirrorsValue Γ (.ptr (.int w)) p y →
    MirrorsItem Γ (.instr (.store ty v p)) .void (.store x y)
  | call {k args ts xs} :
    Γ.function k = some (.void, ts) →
    MirrorsArgs Γ args ts xs →
    MirrorsItem Γ (.instr (.call .void (.global k) args)) .void
      (.call .void (.function k.text .void ts) xs)
  | br {l} :
    MirrorsItem Γ (.term (.br l)) .void (.br (blockName l))
  | condBr {c t e x} :
    MirrorsValue Γ (.int 1) c x →
    MirrorsItem Γ (.term (.condBr c t e)) .void (.condBr x (blockName t) (blockName e))
  | retVoid :
    MirrorsItem Γ (.term .retVoid) .void .retVoid

/-- The instruction of an identified item. Names of instructions without a result are never printed. -/
inductive Mirrors (Γ : Types) : InstrId × Item → Instr → Prop where
  | result {k x t a} :
    MirrorsItem Γ x t a →
    t ≠ .void →
    Γ.register k = t →
    Mirrors Γ (.result k, x) ⟨registerName k, t, a⟩
  | void {n x a name} :
    MirrorsItem Γ x .void a →
    Mirrors Γ (.void n, x) ⟨name, .void, a⟩

/-- The block of a label: one instruction for each item, the terminator included. -/
structure Block.Mirrors (Γ : Types) (b : IR.Block) (b' : Block) : Prop where
  name : b'.name = blockName b.label
  code : List.Forall₂ (Assembly.Mirrors Γ) b.items b'.code

/-! ## Names -/

/-- Texts that begin differently differ. -/
lemma ne_of_first {s t : String} (h : s.toList.head? ≠ t.toList.head?) : s ≠ t :=
  fun eq => h (by rw [eq])

/-- No register has the name of a block. -/
lemma registerName_ne_blockName (k l : Key) : registerName k ≠ blockName l :=
  ne_of_first (by simp [registerName, blockName])

/-- No register has the name of an item without a result. -/
lemma registerName_ne_numbered (k : Key) (n : Nat) : registerName k ≠ numbered "" n :=
  ne_of_first (by simp [registerName, numbered])

/-- No block has the name of an item without a result. -/
lemma blockName_ne_numbered (l : Key) (n : Nat) : blockName l ≠ numbered "" n :=
  ne_of_first (by simp [blockName, numbered])

namespace Scope
variable {s : Scope}

/-- A free name is kept. -/
lemma register_free {base : String} (free : base ∉ s.used) :
    s.register base = (base, { s with used := base :: s.used }) := by
  rw [register, if_neg (by simpa using free)]

/-- Free names that differ are kept. -/
lemma registerAll_free {names : List String} (distinct : names.Nodup)
    (free : ∀ name ∈ names, name ∉ s.used) :
    ∃ s', s.registerAll names = (names, s') ∧ s'.used = names.reverse ++ s.used := by
  induction names generalizing s with
  | nil => exact ⟨s, rfl, rfl⟩
  | cons base names ih =>
    obtain ⟨first, others⟩ := List.forall_mem_cons.1 free
    obtain ⟨new, distinct⟩ := List.nodup_cons.1 distinct
    obtain ⟨s', eq, used⟩ := @ih { s with used := base :: s.used } distinct fun name mem used => by
      rcases List.mem_cons.1 used with rfl | used
      · exact new mem
      · exact others name mem used
    refine ⟨s', ?_, by simp [used]⟩
    simp only [registerAll, register_free first, eq]

/-- The empty name is numbered. -/
lemma register_empty (taken : "" ∈ s.used) :
    ∃ n counters, s.register "" = (numbered "" n, ⟨numbered "" n :: s.used, counters⟩) := by
  rw [register, if_pos (by simpa using taken)]
  exact ⟨_, _, rfl⟩

end Scope

/-! ## One item -/

/-- The state after an instruction. -/
def Lowering.emitted (s : Lowering) (base : String) (t : Ty) (a : Action) : Lowering :=
  { s with
    scope := (s.scope.register base).2
    code := s.code.push ⟨(s.scope.register base).1, t, a⟩ }

/-- An instruction comes behind the code so far. -/
lemma Lowering.toList_emitted (s : Lowering) (base : String) (t : Ty) (a : Action) :
    (s.emitted base t a).code.toList = s.code.toList ++ [⟨(s.scope.register base).1, t, a⟩] :=
  Array.toList_push

/-- The register is known under its name and with its type. -/
def Lowering.Holds (Γ : Types) (s : Lowering) (k : Key) : Prop :=
  s.env.get? k = some (.register (Γ.register k) (registerName k))

/-- The labels and the functions that code refers to are known. -/
structure Site.Knows (site : Site) (Γ : Types) (labels : List Key) : Prop where
  label : ∀ l ∈ labels, site.labels.get? l = some (blockName l)
  function : ∀ k ret ts, Γ.function k = some (ret, ts) →
    site.functions.get? k = some (.function k.text ret ts)

section
variable {Γ : Types} {site : Site} {labels : List Key} {s s' : Lowering}

/-- A step that succeeds is followed by the next one, in the state that it leaves. -/
lemma run_bind {α β : Type} {m : Lower α} {f : α → Lower β} {a : α} (h : m.run s = .ok (a, s')) :
    (m >>= f).run s = (f a).run s' := by
  rw [StateT.run_bind, h]
  rfl

/-- A check that succeeds leaves the state as it is. -/
lemma run_lift {α β : Type} {m : Except ExportError α} {f : α → Lower β} {a : α} (h : m = .ok a) :
    ((liftM m : Lower α) >>= f).run s = (f a).run s := by
  rw [h]
  rfl

/-- Adding an instruction always succeeds. -/
lemma run_emit (base : String) (t : Ty) (a : Action) :
    (emit base t a).run s =
      .ok (.register t (s.scope.register base).1, s.emitted base t a) := rfl

/-- An operand has the type of its value. -/
lemma MirrorsValue.type_eq {t : Ty} {v : IR.Value} {x : Operand} (h : MirrorsValue Γ t v x) :
    x.type = t := by
  cases h with
  | int | bool | register => rfl

/-- Arguments that mirror have the types of the parameters. -/
lemma MirrorsArgs.checkArgs {args ts xs} (h : MirrorsArgs Γ args ts xs) : checkArgs ts xs = .ok () := by
  induction h with
  | nil => rfl
  | cons _ value _ ih => rw [Assembly.checkArgs, if_pos value.type_eq, ih]

/-- An operand changes nothing; its written type only matters for literals. -/
lemma MirrorsValue.lower {t : Ty} {ty : IR.Ty} {v : IR.Value} {x : Operand} (h : MirrorsValue Γ t v x)
    (known : ∀ k ∈ v.registers, s.Holds Γ k) (written : ∀ w, t = .int w → convert ty = .ok t) :
    (lowerOperand site ty v).run s = .ok (x, s) := by
  cases h with
  | int =>
    rw [lowerOperand, constant, written _ rfl]
    rfl
  | bool =>
    rw [lowerOperand]
    rfl
  | @register _ k eq =>
    have found := known k List.mem_cons_self
    rw [Lowering.Holds, eq] at found
    rw [lowerOperand, run_bind (show (get : Lower Lowering).run s = .ok (s, s) from rfl), found]
    rfl

/-- Arguments change nothing. -/
lemma MirrorsArgs.lower {args ts xs} (h : MirrorsArgs Γ args ts xs)
    (known : ∀ v ∈ args.map (·.2), ∀ k ∈ v.registers, s.Holds Γ k) :
    (lowerArgs site args).run s = .ok (xs, s) := by
  induction h with
  | nil => rfl
  | cons written value _ ih =>
    obtain ⟨first, others⟩ := List.forall_mem_cons.1 known
    rw [lowerArgs, run_bind (value.lower first fun _ _ => written), run_bind (ih others)]
    rfl

/-- Two operands of one type. -/
lemma run_operands {α : Type} {t : Ty} {ty : IR.Ty} {l r : IR.Value} {x y : Operand}
    {f : Operand → Operand → Lower α} (left : MirrorsValue Γ t l x) (right : MirrorsValue Γ t r y)
    (written : convert ty = .ok t) (known : ∀ v ∈ [l, r], ∀ k ∈ v.registers, s.Holds Γ k) :
    (lowerOperand site ty l >>= fun u => lowerOperand site ty r >>= f u).run s = (f x y).run s := by
  obtain ⟨knownl, others⟩ := List.forall_mem_cons.1 known
  have knownr := List.forall_mem_singleton.1 others
  rw [run_bind (left.lower knownl fun _ _ => written), run_bind (right.lower knownr fun _ _ => written)]

/-- The builder's method for an operator adds an instruction with that operator. -/
lemma opcode?_method? {op : IR.BinaryOp} (known : op ∈ IR.BinaryOp.all) :
    (method? op).bind opcode? = some op := by
  cases op with
  | unknown => simp [IR.BinaryOp.all] at known
  | _ => rfl

/-- The sign of a comparison asks the builder for that comparison. -/
lemma signed?_sign? {c : IR.Condition} (known : c ∈ IR.Condition.all) :
    (sign? c).bind signed? = some c := by
  cases c with
  | unknown => simp [IR.Condition.all] at known
  | _ => rfl

/-- A known operator on operands of one type is added with its own opcode. -/
lemma run_emitBinary {base : String} {op : IR.BinaryOp} {x y : Operand} (known : op ∈ IR.BinaryOp.all)
    (same : x.type = y.type) :
    (emitBinary site base op x y).run s =
      .ok (.register x.type (s.scope.register base).1, s.emitted base x.type (.binary op x y)) := by
  rw [emitBinary, opcode?_method? known]
  simp only [if_pos same]
  rfl

/-- A known comparison is added with its own condition. -/
lemma run_emitComparison {base : String} {c : IR.Condition} {x y : Operand}
    (known : c ∈ IR.Condition.all) :
    (emitComparison base c x y).run s =
      .ok (.register (.int 1) (s.scope.register base).1, s.emitted base (.int 1) (.icmp c x y)) := by
  rw [emitComparison, signed?_sign? known]
  rfl

/-- A call of a function with checked arguments is added with the result of the function. -/
lemma run_emitCall {base name : String} {ret : Ty} {ts : List Ty} {xs : List Operand}
    (checked : checkArgs ts xs = .ok ()) :
    (emitCall base (.function name ret ts) xs).run s =
      .ok (.register ret (s.scope.register base).1,
        s.emitted base ret (.call ret (.function name ret ts) xs)) := by
  have sig : signature (.function name ret ts) = .ok (ret, ts) := rfl
  rw [emitCall, run_lift sig]
  dsimp only
  rw [run_lift checked, run_emit]

/-- An item with a result. -/
lemma MirrorsItem.lower_result {i : InstrId} {x : Item} {t : Ty} {a : Action} (h : MirrorsItem Γ x t a)
    (value : t ≠ .void) (known : ∀ v ∈ x.pointer?.toList ++ x.values, ∀ k ∈ v.registers, s.Holds Γ k) :
    (lowerItem site i x).run s =
      .ok (some (.register t (s.scope.register (resultName i)).1), s.emitted (resultName i) t a) := by
  cases h with
  | binop isKnown written left right =>
    rw [lowerItem, run_operands left right written known, StateT.run_map,
      run_emitBinary isKnown (left.type_eq.trans right.type_eq.symm), left.type_eq]
    rfl
  | icmp isKnown written left right =>
    rw [lowerItem, run_operands left right written known, StateT.run_map,
      run_emitComparison isKnown]
    rfl
  | alloca written =>
    rw [lowerItem, run_lift written]
    rfl
  | load _ pointer =>
    have knownp := List.forall_mem_singleton.1 known
    rw [lowerItem, run_bind (pointer.lower knownp (by simp)), pointer.type_eq]
    rfl
  | store | call | br | condBr | retVoid => exact absurd rfl value

/-- An item without a result. -/
lemma MirrorsItem.lower_void {i : InstrId} {x : Item} {a : Action} (h : MirrorsItem Γ x .void a)
    (instr : x.isTerm = false) (knows : site.Knows Γ labels)
    (known : ∀ v ∈ x.pointer?.toList ++ x.values, ∀ k ∈ v.registers, s.Holds Γ k) :
    (lowerItem site i x).run s = .ok (none, s.emitted "" .void a) := by
  cases h with
  | store written value pointer =>
    obtain ⟨knownp, others⟩ := List.forall_mem_cons.1 known
    have knownv := List.forall_mem_singleton.1 others
    rw [lowerItem, run_bind (value.lower knownv fun _ _ => written),
      run_bind (pointer.lower knownp (by simp)), pointer.type_eq]
    simp only [value.type_eq, if_true]
    rfl
  | @call k args ts xs found mirrored =>
    obtain ⟨_, knowna⟩ := List.forall_mem_cons.1 known
    have callee : (lowerOperand site (.ptr (.fn .void [])) (.global k)).run s =
        .ok (.function k.text .void ts, s) := by
      rw [lowerOperand, knows.function k _ _ found]
      rfl
    rw [lowerItem, run_bind callee, run_bind (mirrored.lower knowna)]
    simp only [IR.Ty.isVoid, if_true]
    rw [run_bind (run_emitCall mirrored.checkArgs)]
    rfl
  | br | condBr | retVoid => cases instr

/-- The target of a branch to a known label is its block. -/
lemma target_eq {l : Key} (knows : site.Knows Γ labels) (mem : l ∈ labels) :
    target site l = .ok (blockName l) := by
  rw [target, knows.label l mem]
  rfl

/-- A terminator. -/
lemma MirrorsItem.lower_term {t : IR.Term} {a : Action} (h : MirrorsItem Γ (.term t) .void a)
    (knows : site.Knows Γ labels) (targets : ∀ l ∈ t.targets, l ∈ labels)
    (known : ∀ v ∈ (Item.term t).values, ∀ k ∈ v.registers, s.Holds Γ k) :
    (lowerTerm site (.term t)).run s = .ok ((), s.emitted "" .void a) := by
  cases h with
  | br =>
    have inside := List.forall_mem_singleton.1 targets
    rw [lowerTerm, run_lift (target_eq knows inside)]
    rfl
  | condBr value =>
    obtain ⟨inside, others⟩ := List.forall_mem_cons.1 targets
    have inside' := List.forall_mem_singleton.1 others
    have knownc := List.forall_mem_singleton.1 known
    rw [lowerTerm, run_bind (value.lower knownc fun _ _ => rfl), run_lift (target_eq knows inside),
      run_lift (target_eq knows inside')]
    rfl
  | retVoid => rfl

end

/-! ## The rest of a stream -/

/-- An element stands where it belongs, its item has an instruction, and it branches to the labels. -/
def Mirrored (Γ : Types) (labels : List Key) : Elem → Prop
  | .instr i (.instr x) => ∃ y, Mirrors Γ (i, .instr x) y
  | .term i (.term t) => (∃ y, Mirrors Γ (i, .term t) y) ∧ ∀ l ∈ t.targets, l ∈ labels
  | .label _ => True
  | .instr .. | .term .. | .foreign => False

/-- The rest of a stream can be exported. -/
structure Ready (Γ : Types) (labels : List Key) (es : List Elem) (s : Lowering) : Prop where
  mirrored : ∀ e ∈ es, Mirrored Γ labels e
  ordered : IR.Ordered (s.Holds Γ) es
  /-- The empty name is in use, so that items without a result are numbered. -/
  taken : "" ∈ s.scope.used
  distinct : ((es.filterMap Elem.result?).map registerName).Nodup
  free : ∀ k ∈ es.filterMap Elem.result?, registerName k ∉ s.scope.used

section
variable {Γ : Types} {site : Site} {labels : List Key} {es : List Elem} {s : Lowering}

/-- An instruction without a result leaves the rest of the stream as it is. -/
lemma Ready.void {e : Elem} (h : Ready Γ labels (e :: es) s) (none : e.result? = none) (t : Ty)
    (a : Action) : Ready Γ labels es (s.emitted "" t a) := by
  obtain ⟨n, counters, registered⟩ := Scope.register_empty h.taken
  have used : (s.emitted "" t a).scope.used = numbered "" n :: s.scope.used := by
    rw [Lowering.emitted, registered]
  have distinct := h.distinct
  have free := h.free
  rw [List.filterMap_cons_none none] at distinct free
  refine ⟨(List.forall_mem_cons.1 h.mirrored).2, ?_, ?_, distinct, ?_⟩
  · refine h.ordered.2.mono fun k => ?_
    rintro (held | result)
    · exact held
    · rw [none] at result
      cases result
  · rw [used]
    exact List.mem_cons_of_mem _ h.taken
  · intro k mem
    rw [used, List.mem_cons, not_or]
    exact ⟨registerName_ne_numbered k n, free k mem⟩

/-- The result of an instruction takes its name, and is known to the rest of the stream. -/
lemma Ready.result {e : Elem} {k : Key} (h : Ready Γ labels (e :: es) s) (result : e.result? = some k)
    (a : Action) :
    (s.scope.register (registerName k)).1 = registerName k ∧
    Ready Γ labels es { s.emitted (registerName k) (Γ.register k) a with
      env := s.env.insert k (.register (Γ.register k) (registerName k)) } := by
  have distinct := h.distinct
  have free := h.free
  rw [List.filterMap_cons_some result] at distinct free
  obtain ⟨new, distinct⟩ := List.nodup_cons.1 distinct
  obtain ⟨first, others⟩ := List.forall_mem_cons.1 free
  have registered := Scope.register_free first
  refine ⟨by rw [registered], (List.forall_mem_cons.1 h.mirrored).2, ?_, ?_, distinct, ?_⟩
  · refine h.ordered.2.mono fun j => ?_
    rintro (held | here)
    · -- a register that was known keeps its name and its type also if it is this one
      rw [Lowering.Holds, Table.get?_insert]
      split
      · rename_i eq
        rw [eq]
      · exact held
    · cases result.symm.trans here
      rw [Lowering.Holds, Table.get?_insert, if_pos rfl]
  · rw [Lowering.emitted, registered]
    exact List.mem_cons_of_mem _ h.taken
  · intro j mem
    rw [Lowering.emitted, registered]
    intro used
    rcases List.mem_cons.1 used with eq | used
    · exact new (List.mem_map.2 ⟨j, mem, eq⟩)
    · exact others j mem used

/-- One item in code position becomes the instruction that mirrors it. -/
lemma Ready.lowerItem {i : InstrId} {x : Item} (h : Ready Γ labels (.instr i x :: es) s)
    (knows : site.Knows Γ labels) :
    ∃ s' y, (∀ code, (lowerCode site ((i, x) :: code)).run s = (lowerCode site code).run s') ∧
      Mirrors Γ (i, x) y ∧ s'.code.toList = s.code.toList ++ [y] ∧ Ready Γ labels es s' := by
  obtain ⟨⟨y, mirror⟩, instr⟩ : (∃ y, Mirrors Γ (i, x) y) ∧ x.isTerm = false := by
    have here := h.mirrored _ List.mem_cons_self
    cases x with
    | instr => exact ⟨here, rfl⟩
    | term => exact here.elim
  have known : ∀ v ∈ x.pointer?.toList ++ x.values, ∀ k ∈ v.registers, s.Holds Γ k :=
    fun v memv k memk => h.ordered.1 k (List.mem_flatMap.2 ⟨v, memv, memk⟩)
  cases mirror with
  | @result k _ t a item value type =>
    subst type
    obtain ⟨name, rest⟩ := h.result rfl a
    refine ⟨_, ⟨registerName k, _, a⟩, fun code => ?_, .result item value rfl, ?_, rest⟩
    · rw [lowerCode, run_bind (item.lower_result value known), resultName]
      have named : (s.scope.register ("v" ++ k.text)).1 = registerName k := name
      rw [named]
      rfl
    · exact (Lowering.toList_emitted _ _ _ _).trans (by rw [name])
  | @void n _ a _ item =>
    refine ⟨_, ⟨(s.scope.register "").1, .void, a⟩, fun code => ?_, .void item,
      s.toList_emitted _ _ _, h.void rfl .void a⟩
    rw [lowerCode, run_bind (item.lower_void instr knows known)]

/-- Code from left to right. -/
lemma Ready.lowerCode {code : List (InstrId × Item)} (h : Ready Γ labels (instrs code ++ es) s)
    (knows : site.Knows Γ labels) :
    ∃ s' ys, (lowerCode site code).run s = .ok ((), s') ∧ List.Forall₂ (Mirrors Γ) code ys ∧
      s'.code.toList = s.code.toList ++ ys ∧ Ready Γ labels es s' := by
  induction code generalizing s with
  | nil => exact ⟨s, [], rfl, .nil, by simp, h⟩
  | cons x code ih =>
    obtain ⟨s₁, y, step, mirror, out, rest⟩ := h.lowerItem knows
    obtain ⟨s', ys, run, mirrors, outs, ready⟩ := ih rest
    refine ⟨s', y :: ys, (step code).trans run, .cons mirror mirrors, ?_, ready⟩
    rw [outs, out, List.append_assoc, List.singleton_append]

/-- An item in terminator position. -/
lemma Ready.lowerTerm {i : InstrId} {x : Item} (h : Ready Γ labels (.term i x :: es) s)
    (knows : site.Knows Γ labels) :
    ∃ s' y, (lowerTerm site x).run s = .ok ((), s') ∧ Mirrors Γ (i, x) y ∧
      s'.code.toList = s.code.toList ++ [y] ∧ Ready Γ labels es s' := by
  have here := h.mirrored _ List.mem_cons_self
  cases x with
  | instr => exact here.elim
  | term t =>
    obtain ⟨⟨y, mirror⟩, targets⟩ := here
    have known : ∀ v ∈ (Item.term t).values, ∀ k ∈ v.registers, s.Holds Γ k :=
      fun v memv k memk => h.ordered.1 k (List.mem_flatMap.2 ⟨v, memv, memk⟩)
    cases mirror with
    | result item value =>
      -- terminators have no result
      cases item with
      | br | condBr | retVoid => exact absurd rfl value
    | @void n _ a _ item =>
      exact ⟨_, ⟨(s.scope.register "").1, .void, a⟩, item.lower_term knows targets known, .void item,
        s.toList_emitted _ _ _, h.void rfl .void a⟩

/-- A label begins a block without instructions. -/
lemma Ready.label {l : Key} (h : Ready Γ labels (.label l :: es) s) :
    Ready Γ labels es { s with code := #[] } := by
  refine ⟨(List.forall_mem_cons.1 h.mirrored).2, h.ordered.2.mono fun k => ?_, h.taken, h.distinct, h.free⟩
  rintro (held | result)
  · exact held
  · cases result

/-- A block under the name of its label. -/
lemma Ready.lowerBlock {b : IR.Block} (h : Ready Γ labels (b.elems ++ es) s)
    (knows : site.Knows Γ labels) :
    ∃ s' b', (lowerBlock site b (blockName b.label)).run s = .ok (b', s') ∧ Block.Mirrors Γ b b' ∧
      Ready Γ labels es s' := by
  rw [IR.Block.elems, List.cons_append, List.append_assoc] at h
  obtain ⟨s₁, ys, code, mirrors, outs, rest⟩ := h.label.lowerCode knows
  obtain ⟨s₂, y, term, mirror, out, ready⟩ := rest.lowerTerm knows
  refine ⟨s₂, ⟨blockName b.label, s₂.code.toList⟩, ?_, ⟨rfl, ?_⟩, ready⟩
  · have cleared : (modify fun s => { s with code := #[] } : Lower Unit).run s =
        .ok ((), { s with code := #[] }) := rfl
    rw [Assembly.lowerBlock, run_bind cleared, run_bind code, run_bind term]
    rfl
  · rw [out, outs]
    exact List.rel_append mirrors (.cons mirror .nil)

/-- Blocks in order, whose labels are distinct. -/
lemma Ready.lowerBlocks {bs : List IR.Block} {seen : List Key} (h : Ready Γ labels (stream bs) s)
    (knows : site.Knows Γ labels) (distinct : (bs.map (·.label)).Nodup)
    (new : ∀ b ∈ bs, b.label ∉ seen) :
    ∃ s' bs', (lowerBlocks site seen (bs.zip (bs.map fun b => blockName b.label))).run s = .ok (bs', s') ∧
      List.Forall₂ (Block.Mirrors Γ) bs bs' := by
  induction bs generalizing s seen with
  | nil => exact ⟨s, [], rfl, .nil⟩
  | cons b bs ih =>
    obtain ⟨first, others⟩ := List.forall_mem_cons.1 new
    obtain ⟨apart, distinct⟩ := List.nodup_cons.1 distinct
    rw [stream, List.flatMap_cons] at h
    obtain ⟨s₁, b', block, mirror, rest⟩ := h.lowerBlock knows
    obtain ⟨s', bs', blocks, mirrors⟩ := @ih s₁ (b.label :: seen) rest distinct fun c mem used => by
      rcases List.mem_cons.1 used with same | used
      · exact apart (List.mem_map.2 ⟨c, mem, same⟩)
      · exact others c mem used
    refine ⟨s', b' :: bs', ?_, .cons mirror mirrors⟩
    rw [List.map_cons, List.zip_cons_cons, Assembly.lowerBlocks, run_bind block,
      if_neg (by simpa using first)]
    simp only
    rw [run_bind blocks]
    rfl

end

/-! ## Definitions -/

/-- A definition without parameters whose items have instructions, with registers known before they are
referred to and with distinct names. -/
structure Exportable (Γ : Types) (d : IR.Definition) : Prop where
  params : d.params = []
  mirrored : ∀ e ∈ stream d.blocks, Mirrored Γ (d.blocks.map (·.label)) e
  ordered : IR.Ordered (fun _ => False) (stream d.blocks)
  results : (((stream d.blocks).filterMap Elem.result?).map registerName).Nodup
  names : (d.blocks.map fun b => blockName b.label).Nodup

/-- The names of a header are apart from those of registers and blocks. -/
structure Header.Apart (h : Header) : Prop where
  taken : "" ∈ h.scope.used
  register : ∀ k, registerName k ∉ h.scope.used
  block : ∀ l, blockName l ∉ h.scope.used

/-- An exportable definition becomes a function with one block for each of its blocks. -/
lemma Exportable.defineFunction {Γ : Types} {functions : Table Key Operand} {h : Header} {d : IR.Definition}
    (exportable : Exportable Γ d) (apart : h.Apart)
    (knows : ∀ k ret ts, Γ.function k = some (ret, ts) →
      functions.get? k = some (.function k.text ret ts)) :
    ∃ blocks, defineFunction functions h d = .ok ⟨h.name, h.ret, h.params, blocks⟩ ∧
      List.Forall₂ (Block.Mirrors Γ) d.blocks blocks := by
  -- blocks take their names before any item does
  obtain ⟨scope, registered, used⟩ := Scope.registerAll_free exportable.names (s := h.scope) (by
    intro name mem
    obtain ⟨b, _, rfl⟩ := List.mem_map.1 mem
    exact apart.block b.label)
  have site : Site.Knows ⟨d.name, functions, Table.ofList ((d.blocks.map (·.label)).zip
      (d.blocks.map fun b => blockName b.label))⟩ Γ (d.blocks.map (·.label)) := by
    refine ⟨fun l mem => ?_, knows⟩
    have labels : (d.blocks.map (·.label)).zip (d.blocks.map fun b => blockName b.label) =
        (d.blocks.map (·.label)).map fun l => (l, blockName l) := by
      rw [List.zip_map', List.map_map]
      rfl
    rw [labels]
    exact Table.get?_ofList_map mem
  have ready : Ready Γ (d.blocks.map (·.label)) (stream d.blocks) ⟨scope, ∅, #[]⟩ := by
    refine ⟨exportable.mirrored, exportable.ordered.mono fun _ => False.elim, ?_, exportable.results, ?_⟩
    · rw [used]
      exact List.mem_append_right _ apart.taken
    · intro k _ taken
      rw [used] at taken
      rcases List.mem_append.1 taken with name | old
      · obtain ⟨b, _, eq⟩ := List.mem_map.1 (List.mem_reverse.1 name)
        exact registerName_ne_blockName k b.label eq.symm
      · exact apart.register k old
  have labels : (d.blocks.map (·.label)).Nodup := by
    refine List.Nodup.of_map blockName ?_
    rw [List.map_map]
    exact exportable.names
  obtain ⟨s', blocks, run, mirrors⟩ := ready.lowerBlocks site labels fun _ _ => List.not_mem_nil
  refine ⟨blocks, ?_, mirrors⟩
  have wanted : (d.blocks.map fun b => "b" ++ b.label.text) = d.blocks.map fun b => blockName b.label := rfl
  have empty : (Table.ofList [] : Table Key Operand) = ∅ := rfl
  rw [Assembly.defineFunction, wanted, registered]
  simp only [exportable.params, List.zip_nil_left, empty, run]
  rfl

end Assembly

end ImpSSA
