import ImpSSA.Proofs.Lists
import ImpSSA.Proofs.IR.Flow
import ImpSSA.Proofs.CodeGen.Refusal
import ImpSSA.Proofs.CodeGen.Verified

/-!
# Registers of compiled code

Compiled code refers to two kinds of registers: those that hold the cells of storage, only as
pointers to load from or to store to, and results of the same block that were computed before
(`Item.ScopedIn`). `Scoped cells code es` says this of a stream, where `code` is what stands between
the last label and its front; it holds of the code of every command (`CommandCode.inScope`) and passes to
the blocks (`Scoped.block`).

`Definition.StrictSSA` is the whole discipline, with what follows for the paths through the blocks, and
`compiled_strict_ssa` says that compiled programs keep it.
-/

namespace ImpSSA
open IR

namespace IR

mutual

/-- The registers that an operand refers to, also those inside of operator expressions. -/
def Value.registers : Value → List Key
  | .register k => [k]
  | .binop _ _ l r | .icmp _ _ l r => l.registers ++ r.registers
  | .gep _ base indices => base.registers ++ Value.registersAll indices
  | .int _ | .bool _ | .null | .zero | .global _ | .str _ | .undef | .addr _ | .fnPtr _ | .foreign =>
    []

/-- The registers that some operands refer to. -/
def Value.registersAll : List Value → List Key
  | [] => []
  | v :: vs => v.registers ++ Value.registersAll vs

end

/-- The pointer operand of a load or a store. -/
def Item.pointer? : Item → Option Value
  | .instr (.load _ p) | .instr (.store _ _ p) => some p
  | .instr (.binop ..) | .instr (.icmp ..) | .instr (.alloca _) | .instr (.call ..)
  | .instr .foreign | .term _ => none

/-- The operands that are not pointers to load from or to store to. -/
def Item.values : Item → List Value
  | .instr (.binop _ _ l r) | .instr (.icmp _ _ l r) => [l, r]
  | .instr (.store _ v _) | .term (.condBr v _ _) | .term (.ret _ v) => [v]
  | .instr (.call _ f args) => f :: args.map (·.2)
  | .instr (.alloca _) | .instr (.load ..) | .instr .foreign | .term (.br _) | .term .retVoid
  | .term .foreign => []

/-- The registers that an item refers to. -/
def Item.registers (x : Item) : List Key :=
  (x.pointer?.toList ++ x.values).flatMap Value.registers

/-- Whether an item makes a new cell. -/
def Item.allocates : Item → Bool
  | .instr (.alloca _) => true
  | _ => false

/-- Whether an item loads or computes a value. -/
def Item.computes : Item → Bool
  | .instr (.load ..) | .instr (.binop ..) | .instr (.icmp ..) => true
  | _ => false

/-- The registers that take the results of the items of a kind. -/
def resultsOf (kind : Item → Bool) (code : List (InstrId × Item)) : List Key :=
  code.filterMap fun x => if kind x.2 then x.1.register? else none

/-- The results of a definition in order. -/
def Definition.results (d : Definition) : List Key :=
  (d.blocks.flatMap Block.ids).filterMap InstrId.register?

/-- Static single assignment with temporaries that live in one block; `cells` are the registers of
storage. -/
structure Definition.StrictSSA (d : Definition) (cells : List Key) : Prop where
  /-- Every register that is referred to or defined is defined exactly once. -/
  once : ∀ b ∈ d.blocks, ∀ x ∈ b.items, ∀ k, x.1 = .result k ∨ k ∈ x.2.registers →
    d.results.count k = 1
  /-- Registers are those of cells, or temporaries defined before in the same block. -/
  inside : ∀ b ∈ d.blocks, ∀ pre i x post, b.items = pre ++ (i, x) :: post → ∀ k ∈ x.registers,
    k ∈ cells ∨ k ∈ resultsOf Item.computes pre
  /-- Those of cells only are the pointers of loads and stores. -/
  pointers : ∀ b ∈ d.blocks, ∀ x ∈ b.items, ∀ k ∈ x.2.registers, k ∈ cells →
    x.2.pointer? = some (.register k) ∧ ∀ v ∈ x.2.values, k ∉ v.registers
  /-- On every path the definition of a register comes before its use. -/
  dominated : ∀ done b, Path d done b → ∀ pre i x post, b.items = pre ++ (i, x) :: post →
    ∀ k ∈ x.registers, .result k ∈ (done ++ pre).map (·.1)

/-- The registers of an item are those of cells, as its pointer only, or temporaries of the code in
front of it. -/
def Item.ScopedIn (cells : List Key) (code : List (InstrId × Item)) (x : Item) : Prop :=
  ∀ k ∈ x.registers,
    (k ∈ cells ∧ x.pointer? = some (.register k) ∧ ∀ v ∈ x.values, k ∉ v.registers) ∨
      k ∈ resultsOf Item.computes code

/-- The items of a stream are scoped, where `code` stands between the last label and its front. -/
def Scoped (cells : List Key) : List (InstrId × Item) → List Elem → Prop
  | _, [] => True
  | _, .label _ :: es => Scoped cells [] es
  | code, .instr i x :: es | code, .term i x :: es =>
    x.ScopedIn cells code ∧ Scoped cells (code ++ [(i, x)]) es
  | code, .foreign :: es => Scoped cells code es

/-- A result of a kind is that of an item of the kind. -/
lemma mem_resultsOf {kind : Item → Bool} {code : List (InstrId × Item)} {k : Key} :
    k ∈ resultsOf kind code ↔ ∃ x, (.result k, x) ∈ code ∧ kind x = true := by
  rw [resultsOf, List.mem_filterMap]
  constructor
  · rintro ⟨⟨i, x⟩, mem, eq⟩
    split at eq
    · rename_i isKind
      cases i with
      | result => cases eq; exact ⟨x, mem, isKind⟩
      | void => cases eq
    · cases eq
  · rintro ⟨x, mem, isKind⟩
    exact ⟨_, mem, if_pos isKind⟩

/-- The results of code and those of the code behind it. -/
lemma resultsOf_append (kind : Item → Bool) (code code' : List (InstrId × Item)) :
    resultsOf kind (code ++ code') = resultsOf kind code ++ resultsOf kind code' :=
  List.filterMap_append

section
variable {cells : List Key} {code : List (InstrId × Item)} {es es' : List Elem}

/-- An item is scoped if its pointer, if it has one, is that of a cell, and its other operands refer
to temporaries. -/
lemma Item.scopedIn_of {x : Item}
    (pointer : ∀ p, x.pointer? = some p → ∃ k ∈ cells, p = .register k)
    (values : ∀ v ∈ x.values, ∀ k ∈ v.registers, k ∈ resultsOf Item.computes code) :
    x.ScopedIn cells code := by
  intro k mem
  -- a register that is both the pointer and in another operand counts as a temporary
  by_cases used : ∃ v ∈ x.values, k ∈ v.registers
  · obtain ⟨v, memv, memk⟩ := used
    exact .inr (values v memv k memk)
  · obtain ⟨v, memv, memk⟩ := List.mem_flatMap.1 mem
    rcases List.mem_append.1 memv with memp | memv
    · have eq : x.pointer? = some v := Option.mem_toList.1 memp
      obtain ⟨k', cell, rfl⟩ := pointer v eq
      cases List.mem_singleton.1 memk
      exact .inl ⟨cell, eq, fun v memv memk => used ⟨v, memv, memk⟩⟩
    · exact absurd ⟨v, memv, memk⟩ used

/-- More code may stand in front of an item. -/
lemma Item.ScopedIn.mono {x : Item} (h : x.ScopedIn cells code) (pre : List (InstrId × Item)) :
    x.ScopedIn cells (pre ++ code) := by
  intro k mem
  rw [resultsOf_append]
  exact (h k mem).imp_right (List.mem_append_right _)

/-- More code in front keeps a stream scoped. -/
lemma Scoped.mono (h : Scoped cells code es) (pre : List (InstrId × Item)) :
    Scoped cells (pre ++ code) es := by
  induction es generalizing code with
  | nil => trivial
  | cons e es ih =>
    cases e with
    | label => exact h
    | instr i x | term i x =>
      have rest := ih h.2
      rw [← List.append_assoc] at rest
      exact ⟨h.1.mono pre, rest⟩
    | foreign => exact ih h

/-- More code may stand in front of a stream. -/
lemma Scoped.front (h : Scoped cells [] es) (pre : List (InstrId × Item)) : Scoped cells pre es := by
  have more := h.mono pre
  rwa [List.append_nil] at more

/-- Streams that are scoped by themselves are scoped together. -/
lemma Scoped.append (h : Scoped cells code es) (h' : Scoped cells [] es') :
    Scoped cells code (es ++ es') := by
  induction es generalizing code with
  | nil => exact h'.front code
  | cons e es ih =>
    cases e with
    | label => exact ih h
    | instr | term => exact ⟨h.1, ih h.2⟩
    | foreign => exact ih h

/-- Behind scoped code a stream may refer to its temporaries. -/
lemma Scoped.behind {more : List (InstrId × Item)} (h : Scoped cells code (instrs more))
    (h' : Scoped cells (code ++ more) es) : Scoped cells code (instrs more ++ es) := by
  induction more generalizing code with
  | nil => rwa [List.append_nil] at h'
  | cons x more ih =>
    refine ⟨h.1, ih h.2 ?_⟩
    rwa [List.append_assoc]

/-- The rest of a scoped stream is scoped. -/
lemma Scoped.suffix (h : Scoped cells code (es ++ es')) : ∃ code', Scoped cells code' es' := by
  induction es generalizing code with
  | nil => exact ⟨code, h⟩
  | cons e es ih =>
    cases e with
    | label => exact ih h
    | instr | term => exact ih h.2
    | foreign => exact ih h

/-- An item of scoped code is scoped in what stands before it. -/
lemma Scoped.place {items pre post : List (InstrId × Item)} {t : InstrId × Item} {i : InstrId} {x : Item}
    (h : Scoped cells code (instrs items ++ .term t.1 t.2 :: es))
    (eq : items ++ [t] = pre ++ (i, x) :: post) : x.ScopedIn cells (code ++ pre) := by
  induction items generalizing code pre with
  | nil =>
    cases pre with
    | nil =>
      cases eq
      rw [List.append_nil]
      exact h.1
    | cons y pre => simp at eq
  | cons y items ih =>
    cases pre with
    | nil =>
      cases eq
      rw [List.append_nil]
      exact h.1
    | cons z pre =>
      obtain ⟨rfl, tail⟩ := List.cons.inj eq
      have rest := ih h.2 tail
      rwa [List.append_assoc] at rest

/-- The items of a block of a scoped stream are scoped in what stands before them in the block. -/
lemma Scoped.block {bs : List Block} (h : Scoped cells code (stream bs)) {b : Block} (mem : b ∈ bs)
    {pre post : List (InstrId × Item)} {i : InstrId} {x : Item} (eq : b.items = pre ++ (i, x) :: post) :
    x.ScopedIn cells pre := by
  induction bs generalizing code with
  | nil => cases mem
  | cons b' bs ih =>
    rw [stream, List.flatMap_cons] at h
    rcases List.mem_cons.1 mem with rfl | mem
    · rw [Block.elems, List.cons_append, List.append_assoc] at h
      have inside : Scoped cells [] (instrs b.code ++ .term b.term.1 b.term.2 :: stream bs) := h
      exact inside.place eq
    · obtain ⟨code', rest⟩ := h.suffix
      exact ih rest mem

end

end IR

/-! ## Code is scoped -/

/-- The pointers of a context are registers of cells. -/
def Context.Points (ctx : Context) (cells : List Key) : Prop :=
  ∀ x p, ctx.get? x = some p → ∃ k ∈ cells, p = .register k

/-- The code is scoped and the operand refers to its temporaries. -/
structure ScopedValue (cells : List Key) (code : List (InstrId × Item)) (w : Value) : Prop where
  items : Scoped cells [] (instrs code)
  value : ∀ k ∈ w.registers, k ∈ resultsOf Item.computes code

section
variable {cells : List Key}

/-- A literal refers to nothing. -/
lemma ScopedValue.literal {w : Value} (none : w.registers = []) : ScopedValue cells [] w := by
  refine ⟨trivial, ?_⟩
  rw [none]
  exact List.forall_mem_nil _

/-- An item behind the code of its operands is scoped, and the register of its result is a temporary. -/
lemma ScopedValue.operator {cl cr : List (InstrId × Item)} {u w : Value} {k : Key} {x : Item}
    (left : ScopedValue cells cl u) (right : ScopedValue cells cr w) (none : x.pointer? = none)
    (values : x.values = [u, w]) (computes : x.computes = true) :
    ScopedValue cells (cl ++ (cr ++ [(.result k, x)])) (.register k) := by
  have inside : x.ScopedIn cells (cl ++ cr) := by
    refine Item.scopedIn_of (by simp [none]) ?_
    rw [values, resultsOf_append]
    intro v mem k memk
    rcases List.mem_pair.1 mem with rfl | rfl
    · exact List.mem_append_left _ (left.value k memk)
    · exact List.mem_append_right _ (right.value k memk)
  refine ⟨?_, ?_⟩
  · rw [instrs_append, instrs_append]
    exact left.items.behind ((right.items.front cl).behind ⟨inside, trivial⟩)
  · exact List.forall_mem_singleton.2 (mem_resultsOf.2 ⟨x, by simp, computes⟩)

variable {ctx : Context} {n n' v v' : Nat}

/-- A load goes through the pointer of a cell. -/
lemma load_scopedIn {x : String} {p : Value} {code : List (InstrId × Item)} (points : ctx.Points cells)
    (found : ctx.get? x = some p) : (Item.instr (.load .i64 p)).ScopedIn cells code := by
  refine Item.scopedIn_of (fun q eq => ?_) (List.forall_mem_nil _)
  cases eq
  exact points x p found

/-- The code of an arithmetic expression is scoped, and its operand refers only to results of it. -/
lemma ArithCode.inScope {e code w} (h : ArithCode ctx n e code w n') (points : ctx.Points cells) :
    ScopedValue cells code w := by
  induction h with
  | num => exact .literal rfl
  | var found =>
    refine ⟨⟨load_scopedIn points found, trivial⟩, ?_⟩
    exact List.forall_mem_singleton.2 (mem_resultsOf.2 ⟨_, List.mem_cons_self, rfl⟩)
  | arith _ _ ihl ihr => exact ihl.operator ihr rfl rfl rfl

/-- The code of a boolean expression is scoped, and its operand refers only to results of it. -/
lemma BoolCode.inScope {b code w} (h : BoolCode ctx n b code w n') (points : ctx.Points cells) :
    ScopedValue cells code w := by
  induction h with
  | bool => exact .literal rfl
  | cmp l r => exact (l.inScope points).operator (r.inScope points) rfl rfl rfl
  | not _ ih => exact ih.operator (.literal (w := .bool true) rfl) rfl rfl rfl
  | and _ _ ihl ihr => exact ihl.operator ihr rfl rfl rfl

/-- An item with one operand, behind the code of that operand. -/
lemma ScopedValue.use {code : List (InstrId × Item)} {w : Value} {x : Item}
    (h : ScopedValue cells code w) (values : x.values = [w])
    (pointer : ∀ p, x.pointer? = some p → ∃ k ∈ cells, p = .register k) : x.ScopedIn cells code := by
  refine Item.scopedIn_of pointer ?_
  rw [values]
  exact List.forall_mem_singleton.2 h.value

/-- A jump refers to no registers. -/
lemma jump_scopedIn {l : Nat} {code : List (InstrId × Item)} :
    (Item.term (.br (.anon l))).ScopedIn cells code :=
  List.forall_mem_nil _

/-- The code of a command is scoped by itself. -/
lemma CommandCode.inScope {c es} (h : CommandCode ctx n v c es n' v') (points : ctx.Points cells) :
    Scoped cells [] es := by
  induction h with
  | skip => trivial
  | assign code found =>
    have value := code.inScope points
    refine value.items.behind ⟨value.use rfl fun q eq => ?_, trivial⟩
    cases eq
    exact points _ _ found
  | seq _ _ ihc ihd => exact ihc.append ihd
  | cond test _ _ ihc ihd =>
    have value := test.inScope points
    -- labels forget the temporaries, and the branches are scoped without them
    exact value.items.behind ⟨value.use rfl (by simp [Item.pointer?]), ihc.append
      ⟨jump_scopedIn, ihd.append ⟨jump_scopedIn, trivial⟩⟩⟩
  | loop test _ ih =>
    have value := test.inScope points
    exact ⟨jump_scopedIn, value.items.behind ⟨value.use rfl (by simp [Item.pointer?]), ih.append
      ⟨jump_scopedIn, trivial⟩⟩⟩

/-- The code that prints names is scoped. -/
lemma PrintsCode.inScope {xs code} (h : PrintsCode ctx n v xs code n' v') (points : ctx.Points cells) :
    Scoped cells [] (instrs code) := by
  induction h with
  | nil => trivial
  | @cons n _ _ _ _ _ _ _ found _ ih =>
    refine ⟨load_scopedIn points found, ?_, ih.front _⟩
    refine Item.scopedIn_of (by simp [Item.pointer?]) ?_
    exact List.forall_mem_cons.2 ⟨List.forall_mem_nil _, List.forall_mem_singleton.2
      (List.forall_mem_singleton.2 (mem_resultsOf.2 ⟨_, List.mem_cons_self, rfl⟩))⟩

/-! ## Storage -/

/-- The cells of storage are those numbered from `n`, the last name having the first of them. -/
lemma resultsOf_storageCode (n v : Nat) (xs : List String) :
    resultsOf Item.allocates (storageCode n v xs) = anons n (n + xs.length) := by
  induction xs with
  | nil => exact (anons_self n).symm
  | cons x xs ih =>
    rw [storageCode, resultsOf_append, ih, List.length_cons, ← Nat.add_assoc,
      ← anons_append (Nat.le_add_right n xs.length) (Nat.le_succ _), anons_succ]
    rfl

/-- Storage has two items for each name. -/
lemma length_storageCode (n v : Nat) (xs : List String) :
    (storageCode n v xs).length = 2 * xs.length := by
  induction xs with
  | nil => rfl
  | cons x xs ih =>
    rw [storageCode, List.length_append, ih, List.length_cons, List.length_cons]
    rfl

/-- Storage is zeroed through the register that was defined right before. -/
lemma storageCode_place {xs pre post i x} (eq : storageCode n v xs = pre ++ (i, x) :: post) :
    ∀ k ∈ x.registers, k ∈ resultsOf Item.allocates pre := by
  induction xs generalizing pre post with
  | nil => simp [storageCode] at eq
  | cons y xs ih =>
    rw [storageCode] at eq
    rcases place_append eq with ⟨post', earlier⟩ | ⟨pre', rfl, here⟩
    · exact ih earlier
    · cases pre' with
      | nil =>
        cases here
        exact List.forall_mem_nil _
      | cons z pre' =>
        obtain ⟨rfl, here⟩ := List.cons.inj here
        cases pre' with
        | cons => simp at here
        | nil =>
          cases here
          refine List.forall_mem_singleton.2 (mem_resultsOf.2 ⟨.instr (.alloca .i64), ?_, rfl⟩)
          exact List.mem_append_right _ List.mem_cons_self

/-- The pointers of stored names are the registers of storage. -/
lemma storageContext_points (n : Nat) (xs : List String) :
    (storageContext n xs).Points (anons n (n + xs.length)) := by
  intro x p found
  obtain ⟨ys, zs, rfl, rfl⟩ := of_get?_storageContext found
  refine ⟨_, List.mem_map.2 ⟨n + zs.length, List.Ico.mem.2 ?_, rfl⟩, rfl⟩
  simp only [List.length_append, List.length_cons]
  omega

/-- Storage is scoped, as it refers to cells only through pointers. -/
lemma storage_inScope (xs : List String) (sub : anons n (n + xs.length) ⊆ cells) :
    Scoped cells [] (instrs (storageCode n v xs)) := by
  induction xs with
  | nil => trivial
  | cons x xs ih =>
    rw [List.length_cons, ← Nat.add_assoc,
      ← anons_append (Nat.le_add_right n xs.length) (Nat.le_succ _), anons_succ] at sub
    have new : .anon (n + xs.length : Nat) ∈ cells :=
      sub (List.mem_append_right _ List.mem_cons_self)
    rw [storageCode, instrs_append]
    refine (ih (List.Subset.trans (List.subset_append_left _ _) sub)).append
      ⟨List.forall_mem_nil _, ?_, trivial⟩
    refine Item.scopedIn_of (fun p eq => ?_) (List.forall_mem_singleton.2 (List.forall_mem_nil _))
    cases eq
    exact ⟨_, new, rfl⟩

end

/-! ## Strict single assignment -/

/-- An item that makes a cell computes nothing. -/
lemma not_computes_of_allocates {x : Item} (h : x.allocates = true) : x.computes = false := by
  unfold Item.allocates at h
  split at h
  · rfl
  · cases h

/-- A register of some code is defined where the code is a part. -/
lemma mem_ids_of_resultsOf {kind : Item → Bool} {code all : List (InstrId × Item)} {k : Key}
    (mem : k ∈ resultsOf kind code) (sub : code ⊆ all) : .result k ∈ all.map (·.1) := by
  obtain ⟨x, mem, _⟩ := mem_resultsOf.1 mem
  exact List.mem_map.2 ⟨_, sub mem, rfl⟩

section
variable {d : Definition} {p : Program}

/-- The result of an item is one of the definition. -/
lemma mem_results {b : Block} {x : InstrId × Item} {k : Key} (memb : b ∈ d.blocks) (memx : x ∈ b.items)
    (eq : x.1 = .result k) : k ∈ d.results := by
  refine List.mem_filterMap.2 ⟨.result k, List.mem_flatMap.2 ⟨b, memb, ?_⟩, rfl⟩
  exact List.mem_map.2 ⟨x, memx, eq⟩

/-- In a well-formed definition every result is defined once. -/
lemma nodup_results (wf : d.WellFormed p) : d.results.Nodup := by
  refine List.Nodup.filterMap ?_ wf.ids
  intro i j k memi memj
  cases i with
  | void => cases memi
  | result =>
    cases j with
    | void => cases memj
    | result =>
      cases memi
      cases memj
      rfl

/-- In a well-formed definition an identifier stands for one item. -/
lemma item_unique (wf : d.WellFormed p) {b b' : Block} {x x' : InstrId × Item} (memb : b ∈ d.blocks)
    (memx : x ∈ b.items) (memb' : b' ∈ d.blocks) (memx' : x' ∈ b'.items) (same : x.1 = x'.1) :
    x = x' := by
  have nd : ((d.blocks.flatMap Block.items).map (·.1)).Nodup := by
    rw [List.map_flatMap]
    exact wf.ids
  exact List.inj_on_of_nodup_map nd (List.mem_flatMap.2 ⟨b, memb, memx⟩)
    (List.mem_flatMap.2 ⟨b', memb', memx'⟩) same

end

namespace IR

/-- A definition that begins with storage, through whose cells the other items are scoped. -/
structure Definition.ScopedOver (d : Definition) (first : Block) (storage : List (InstrId × Item)) :
    Prop where
  head : d.blocks.head? = some first
  begins : storage <+: first.items
  zeroed : ∀ {pre i x post}, storage = pre ++ (i, x) :: post →
    ∀ k ∈ x.registers, k ∈ resultsOf Item.allocates pre
  inside : ∀ {b pre i x post}, b ∈ d.blocks → b.items = pre ++ (i, x) :: post →
    x.ScopedIn (resultsOf Item.allocates storage) pre

namespace Definition.ScopedOver
variable {d : Definition} {first : Block} {storage : List (InstrId × Item)}

/-- Registers that are referred to are results. -/
lemma mem_results_of_used (h : d.ScopedOver first storage) {b x k} (memb : b ∈ d.blocks)
    (memx : x ∈ b.items) (used : k ∈ x.2.registers) : k ∈ d.results := by
  obtain ⟨pre, post, eq⟩ := List.append_of_mem memx
  rcases h.inside memb eq k used with ⟨cell, _⟩ | temporary
  · obtain ⟨y, mem, _⟩ := mem_resultsOf.1 cell
    exact mem_results (List.mem_of_head? h.head) (h.begins.subset mem) rfl
  · obtain ⟨y, mem, _⟩ := mem_resultsOf.1 temporary
    have memy : (InstrId.result k, y) ∈ b.items := by
      rw [eq]
      exact List.mem_append_left _ mem
    exact mem_results memb memy rfl

/-- Where identifiers are distinct, cells are not referred to as temporaries. -/
lemma only_pointer {p : Program} (h : d.ScopedOver first storage) (wf : d.WellFormed p) {b x k}
    (memb : b ∈ d.blocks) (memx : x ∈ b.items) (used : k ∈ x.2.registers)
    (cell : k ∈ resultsOf Item.allocates storage) :
    x.2.pointer? = some (.register k) ∧ ∀ v ∈ x.2.values, k ∉ v.registers := by
  obtain ⟨pre, post, eq⟩ := List.append_of_mem memx
  rcases h.inside memb eq k used with ⟨_, only⟩ | temporary
  · exact only
  · -- a register is defined by one item, which cannot both make a cell and compute a value
    obtain ⟨y, memy, allocates⟩ := mem_resultsOf.1 cell
    obtain ⟨z, memz, computes⟩ := mem_resultsOf.1 temporary
    have memz' : (InstrId.result k, z) ∈ b.items := by
      rw [eq]
      exact List.mem_append_left _ memz
    cases item_unique wf (List.mem_of_head? h.head) (h.begins.subset memy) memb memz' rfl
    rw [not_computes_of_allocates allocates] at computes
    cases computes

/-- On every path a register is defined before it is referred to. -/
lemma defined_before (h : d.ScopedOver first storage) {done b pre i x post k} (path : Path d done b)
    (eq : b.items = pre ++ (i, x) :: post) (used : k ∈ x.registers) :
    .result k ∈ (done ++ pre).map (·.1) := by
  rcases h.inside path.mem eq k used with ⟨cell, _⟩ | temporary
  · rcases path.first h.head with rfl | executed
    · -- in the first block a cell is defined before, as it is referred to in or behind storage
      obtain ⟨more, items⟩ := h.begins
      rcases place_append (items.trans eq) with ⟨post', here⟩ | ⟨pre', rfl, _⟩
      · exact mem_ids_of_resultsOf (h.zeroed here k used) (List.subset_append_right _ _)
      · refine mem_ids_of_resultsOf cell ?_
        rw [← List.append_assoc]
        exact List.Subset.trans (List.subset_append_right _ _) (List.subset_append_left _ _)
    · exact mem_ids_of_resultsOf cell (List.Subset.trans h.begins.subset
        (List.Subset.trans executed (List.subset_append_left _ _)))
  · exact mem_ids_of_resultsOf temporary (List.subset_append_right _ _)

/-- A definition whose items are scoped behind its storage is in strict form. -/
lemma strictSSA {p : Program} (h : d.ScopedOver first storage) (wf : d.WellFormed p) :
    d.StrictSSA (resultsOf Item.allocates storage) where
  once b memb x memx k mentioned := by
    apply List.count_eq_one_of_mem (nodup_results wf)
    rcases mentioned with eq | used
    · exact mem_results memb memx eq
    · exact h.mem_results_of_used memb memx used
  inside b memb pre i x post eq k used := (h.inside memb eq k used).imp_left (·.1)
  pointers b memb x memx k used cell := h.only_pointer wf memb memx used cell
  dominated done b path pre i x post eq k used := h.defined_before path eq used

end Definition.ScopedOver

end IR

/-- Behind its storage a function is scoped by itself. -/
lemma body_inScope {c : Node} {ctx : Context} {cells : List Key} {printed : List String}
    {es code n v n₁ v₁ n₂ v₂} (points : ctx.Points cells) (body : CommandCode ctx n v c es n₁ v₁)
    (printing : PrintsCode ctx n₁ v₁ printed code n₂ v₂) :
    Scoped cells [] (es ++ (instrs code ++ [.term (.void v₂) (.term .retVoid)])) :=
  (body.inScope points).append ((printing.inScope points).append ⟨List.forall_mem_nil _, trivial⟩)

/-- The stream of a function is scoped, with the cells of its storage. -/
lemma functionStream_inScope {c : Node} {names printed : List String} {es code n v n' v'}
    (body : CommandCode (storageContext 1 names) (1 + names.length) (1 + names.length) c es n v)
    (printing : PrintsCode (storageContext 1 names) n v printed code n' v') :
    Scoped (anons 1 (1 + names.length)) [] (functionStream names es code v') :=
  (storage_inScope names (List.Subset.refl _)).append
    (body_inScope (storageContext_points 1 names) body printing)

/-- The first block of a function begins with its storage. -/
lemma begins_with_storage {c : Node} {ctx : Context} {names : List String} {es code n v n' v' w}
    {blocks : List Block} (body : CommandCode ctx n v c es n' v')
    (written : stream blocks = functionStream names es code w) :
    ∃ first rest more, blocks = first :: rest ∧ first.label = .anon 0 ∧
      first.code = storageCode 1 1 names ++ more := by
  cases blocks with
  | nil => cases written
  | cons first rest =>
    rw [stream, List.flatMap_cons, Block.elems, List.cons_append] at written
    obtain ⟨label, tail⟩ := List.cons.inj written
    have behind : region (es ++ (instrs code ++ [.term (.void w) (.term .retVoid)])) ≠ [] :=
      (body.regions (.instrs .last)).region_ne_nil
    have items := region_elems first (rest.flatMap Block.elems)
    rw [tail, functionCode, region_instrs] at items
    have code := congrArg List.dropLast items
    rw [List.dropLast_append_of_ne_nil behind, Block.items, List.dropLast_concat] at code
    exact ⟨first, rest, _, rfl, Elem.label.inj label, code.symm⟩

/-- Compiled programs are in strict form: registers are those of the cells that the first block begins
with, and they are only loaded from and stored to, or temporaries of the same block. -/
theorem compiled_strict_ssa (c : Node) (entry : Key) (prints : Bool) (declared : Option (List String)) :
    (c.WellSorted .command → c.Admits declared → ∃ p, c.compile entry prints declared = .ok p) ∧
    ∀ p, c.compile entry prints declared = .ok p → ∃ d first rest,
      p.definitions = [d] ∧ d.name = entry ∧ d.params = [] ∧ d.blocks = first :: rest ∧
      first.label = .anon 0 ∧
      d.StrictSSA (resultsOf Item.allocates (first.code.take (2 * (c.storage declared).length))) := by
  refine ⟨?_, ?_⟩
  · intro ws admits
    obtain ⟨p, compiled, _⟩ := exists_compiled ws entry prints admits
    exact ⟨p, compiled⟩
  · intro p compiled
    obtain ⟨ws, admits⟩ := compile_inv compiled
    obtain ⟨p', compiled', shape⟩ := exists_compiled ws entry prints admits
    cases compiled.symm.trans compiled'
    obtain ⟨body, printing, written⟩ := shape
    obtain ⟨first, rest, more, rfl, label, begins⟩ := begins_with_storage body written
    refine ⟨_, first, rest, definitions_programOf _ _, rfl, rfl, rfl, label, ?_⟩
    have taken : first.code.take (2 * (c.storage declared).length) =
        storageCode 1 1 (c.storage declared) := by
      rw [begins, ← length_storageCode 1 1, List.take_left]
    rw [taken]
    have inScope := functionStream_inScope body printing
    rw [← written, ← resultsOf_storageCode 1 1] at inScope
    have throughout : Definition.ScopedOver ⟨entry, ⟨.void, []⟩, [], first :: rest⟩ first
        (storageCode 1 1 (c.storage declared)) :=
      ⟨rfl, ⟨more ++ [first.term], by rw [Block.items, begins, List.append_assoc]⟩, storageCode_place,
        fun mem eq => inScope.block mem eq⟩
    exact throughout.strictSSA (wellFormed_of_code body printing written)

/-- The nested conditional can be compiled with one more name declared, and stores both. -/
lemma nestedControl_ready :
    nestedControl.WellSorted .command ∧ nestedControl.Admits (some ["Y", "X"]) ∧
      nestedControl.storage (some ["Y", "X"]) = ["X", "Y"] := by
  refine ⟨by repeat constructor, ?_, by decide +kernel⟩
  unfold Node.Admits
  decide +kernel

/-- With two names in storage the first four items of the first block make the cells. -/
theorem nestedControl_strict_ssa :
    ∃ p d first rest, nestedControl.compile (.named "main") true (some ["Y", "X"]) = .ok p ∧
      p.definitions = [d] ∧ d.blocks = first :: rest ∧
      d.StrictSSA (resultsOf Item.allocates (first.code.take 4)) := by
  obtain ⟨ws, admits, names⟩ := nestedControl_ready
  obtain ⟨succeeds, strict⟩ :=
    compiled_strict_ssa nestedControl (.named "main") true (some ["Y", "X"])
  obtain ⟨p, compiled⟩ := succeeds ws admits
  obtain ⟨d, first, rest, defined, _, _, blocks, _, ssa⟩ := strict p compiled
  rw [names] at ssa
  exact ⟨p, d, first, rest, compiled, defined, blocks, ssa⟩

end ImpSSA
