import ImpSSA.IR.Assemble
import ImpSSA.Proofs.IR.WellFormed

/-!
# Streams and their blocks

`stream bs` writes blocks out as elements again. `Regions es` is the shape of streams that assembly
keeps as they are: every stretch between labels ends in its only terminator. For these,
`assemble_of_regions` says that nothing is dropped, moved or overridden.

A place of a stream determines a place of a block: `region es` are the items that are executed from
the front of `es` on, and `exists_block_of_stream` finds the block that a label opens.
-/

namespace ImpSSA.IR

/-- Code as elements of a stream. -/
def instrs (code : List (InstrId × Item)) : List Elem := code.map fun (i, x) => .instr i x

/-- A block as elements of a stream. -/
def Block.elems (b : Block) : List Elem :=
  .label b.label :: (instrs b.code ++ [.term b.term.1 b.term.2])

/-- Blocks as a stream. -/
def stream (bs : List Block) : List Elem := bs.flatMap Block.elems

/-- Streams whose stretches between labels end in their only terminator. -/
inductive Regions : List Elem → Prop where
  | last {i t} :
    Regions [.term i t]
  | instr {i x es} :
    Regions es →
    Regions (.instr i x :: es)
  | term {i t l es} :
    Regions es →
    Regions (.term i t :: .label l :: es)

/-- The items from the front of a stream to its first terminator. -/
def region : List Elem → List (InstrId × Item)
  | .instr i x :: es => (i, x) :: region es
  | .term i t :: _ => [(i, t)]
  | _ => []

/-- What identifies the item of an element. -/
def Elem.id? : Elem → Option InstrId
  | .instr i _ | .term i _ => some i
  | .label _ | .foreign => none

/-- The label that an element is. -/
def Elem.label? : Elem → Option Key
  | .label k => some k
  | .instr .. | .term .. | .foreign => none

/-- The item in code position that an element is. -/
def Elem.instr? : Elem → Option (InstrId × Item)
  | .instr i x => some (i, x)
  | .label _ | .term .. | .foreign => none

/-- The item in terminator position that an element is. -/
def Elem.term? : Elem → Option (InstrId × Item)
  | .term i t => some (i, t)
  | .label _ | .instr .. | .foreign => none

/-- No items are no elements. -/
@[simp] lemma instrs_nil : instrs [] = [] := rfl

/-- The first item is the first element. -/
@[simp] lemma instrs_cons (x : InstrId × Item) (code : List (InstrId × Item)) :
    instrs (x :: code) = .instr x.1 x.2 :: instrs code := rfl

/-- Items one after the other are elements one after the other. -/
@[simp] lemma instrs_append (code code' : List (InstrId × Item)) :
    instrs (code ++ code') = instrs code ++ instrs code' :=
  List.map_append

/-- Code can be read off its elements. -/
lemma instrs_inj {code code' : List (InstrId × Item)} : instrs code = instrs code' ↔ code = code' :=
  List.map_inj_right fun _ _ eq => Prod.ext (Elem.instr.inj eq).1 (Elem.instr.inj eq).2

/-- Items in front of a stream belong to its first region. -/
@[simp] lemma region_instrs (code : List (InstrId × Item)) (es : List Elem) :
    region (instrs code ++ es) = code ++ region es := by
  induction code with
  | nil => rfl
  | cons x code ih => rw [instrs_cons, List.cons_append, region, ih, List.cons_append]

/-- The region behind the label of a block is the block. -/
lemma region_elems (b : Block) (es : List Elem) :
    region (instrs b.code ++ [.term b.term.1 b.term.2] ++ es) = b.items := by
  rw [List.append_assoc, region_instrs]
  rfl

/-- Code in front of a stream keeps its shape. -/
lemma Regions.instrs {code : List (InstrId × Item)} {es : List Elem} (h : Regions es) :
    Regions (instrs code ++ es) := by
  induction code with
  | nil => exact h
  | cons x code ih => exact .instr ih

/-- A region has a terminator at least. -/
lemma Regions.region_ne_nil {es : List Elem} (h : Regions es) : region es ≠ [] := by
  cases h with
  | last | instr | term => exact List.cons_ne_nil _ _

/-- Assembly of a stream of this shape keeps all of its elements. -/
lemma Regions.foldrM_prepend {es : List Elem} (h : Regions es) :
    ∃ code t blocks, es.foldrM Pending.prepend .empty = .ok ⟨code, some t, blocks⟩ ∧
      IR.instrs code ++ .term t.1 t.2 :: stream blocks = es := by
  induction h with
  | @last i t => exact ⟨[], (i, t), [], rfl, rfl⟩
  | @instr i x es _ ih =>
    obtain ⟨code, t, blocks, eq, rfl⟩ := ih
    refine ⟨(i, x) :: code, t, blocks, ?_, rfl⟩
    rw [List.foldrM_cons, eq]
    rfl
  | @term i t l es _ ih =>
    obtain ⟨code, t', blocks, eq, rfl⟩ := ih
    refine ⟨[], (i, t), ⟨l, code, t'⟩ :: blocks, ?_, ?_⟩
    · rw [List.foldrM_cons, List.foldrM_cons, eq]
      rfl
    · simp [stream, Block.elems]

/-- A stream of this shape assembles to blocks that are written out as the stream. -/
lemma assemble_of_regions (entry : Key) {es : List Elem} (h : Regions es) :
    ∃ bs, assemble entry es = .ok bs ∧ stream bs = .label entry :: es := by
  obtain ⟨code, t, blocks, eq, rfl⟩ := h.foldrM_prepend
  refine ⟨⟨entry, code, t⟩ :: blocks, ?_, ?_⟩
  · rw [assemble, eq]
    rfl
  · simp [stream, Block.elems]

/-- What follows a label behind elements that are none. -/
lemma append_label_inj {xs ys pre es : List Elem} {l : Key} (none : ∀ e ∈ xs, e.label? = none)
    (eq : xs ++ ys = pre ++ .label l :: es) : ∃ pre', pre = xs ++ pre' ∧ ys = pre' ++ .label l :: es := by
  induction xs generalizing pre with
  | nil => exact ⟨pre, rfl, eq⟩
  | cons x xs ih =>
    rw [List.forall_mem_cons] at none
    cases pre with
    | nil =>
      cases eq
      cases none.1
    | cons y pre =>
      obtain ⟨rfl, tail⟩ := List.cons.inj eq
      obtain ⟨pre', rfl, rest⟩ := ih none.2 tail
      exact ⟨pre', rfl, rest⟩

/-- Items are no labels. -/
lemma label?_of_mem_instrs {code : List (InstrId × Item)} {e : Elem} (h : e ∈ instrs code) :
    e.label? = none := by
  obtain ⟨x, _, rfl⟩ := List.mem_map.1 h
  rfl

/-- A label of the stream of blocks opens one of them. -/
lemma exists_block_of_stream {bs : List Block} {pre es : List Elem} {l : Key}
    (eq : stream bs = pre ++ .label l :: es) : ∃ b ∈ bs, b.label = l ∧ b.items = region es := by
  induction bs generalizing pre with
  | nil => simp [stream] at eq
  | cons b bs ih =>
    rw [stream, List.flatMap_cons, Block.elems, List.cons_append] at eq
    cases pre with
    | nil =>
      obtain ⟨label, tail⟩ := List.cons.inj eq
      cases label
      refine ⟨b, List.mem_cons_self, rfl, ?_⟩
      rw [← tail, region_elems]
    | cons e pre =>
      obtain ⟨_, tail⟩ := List.cons.inj eq
      -- the label is not in the first block, so it is one of the others
      obtain ⟨pre', _, rest⟩ := append_label_inj (by
        intro e mem
        rcases List.mem_append.1 mem with mem | mem
        · exact label?_of_mem_instrs mem
        · cases List.mem_singleton.1 mem
          rfl) tail
      obtain ⟨b', mem, label, items⟩ := ih rest
      exact ⟨b', List.mem_cons_of_mem _ mem, label, items⟩

/-- The identifiers of items as elements. -/
lemma filterMap_id?_instrs (code : List (InstrId × Item)) :
    (instrs code).filterMap Elem.id? = code.map (·.1) := by
  induction code with
  | nil => rfl
  | cons x code ih => simp [Elem.id?, ih]

/-- There are no labels among items. -/
lemma filterMap_label?_instrs (code : List (InstrId × Item)) :
    (instrs code).filterMap Elem.label? = [] :=
  List.filterMap_eq_nil_iff.2 fun _ mem => label?_of_mem_instrs mem

/-- Items in code position are not in terminator position. -/
lemma filterMap_term?_instrs (code : List (InstrId × Item)) :
    (instrs code).filterMap Elem.term? = [] := by
  refine List.filterMap_eq_nil_iff.2 fun e mem => ?_
  obtain ⟨x, _, rfl⟩ := List.mem_map.1 mem
  rfl

/-- The identifiers of blocks are those of their stream. -/
lemma filterMap_id?_stream (bs : List Block) :
    (stream bs).filterMap Elem.id? = bs.flatMap Block.ids := by
  rw [stream, List.filterMap_flatMap]
  congr 1
  funext b
  rw [Block.elems, List.filterMap_cons_none rfl, List.filterMap_append, filterMap_id?_instrs,
    Block.ids, Block.items, List.map_append]
  rfl

/-- The labels of blocks are those of their stream. -/
lemma filterMap_label?_stream (bs : List Block) :
    (stream bs).filterMap Elem.label? = bs.map (·.label) := by
  rw [stream, List.filterMap_flatMap]
  induction bs with
  | nil => rfl
  | cons b bs ih =>
    rw [List.flatMap_cons, ih]
    simp [Block.elems, Elem.label?, filterMap_label?_instrs]

/-- The terminators of blocks are those of their stream. -/
lemma filterMap_term?_stream (bs : List Block) :
    (stream bs).filterMap Elem.term? = bs.map (·.term) := by
  rw [stream, List.filterMap_flatMap]
  induction bs with
  | nil => rfl
  | cons b bs ih =>
    rw [List.flatMap_cons, ih]
    simp [Block.elems, List.filterMap_cons, Elem.term?, filterMap_term?_instrs]

end ImpSSA.IR
