import ImpSSA.Proofs.IR.Lookup
import ImpSSA.Proofs.IR.Stream
import ImpSSA.Proofs.Machine.Rules

/-!
# Places of code

The machine finds its place by identifier. Where identifiers are distinct this is the same as
keeping what is left of the block: `At p pc items` says that `items` are left, and `At.instr` and
`At.term` say that the first of them is executed, and that the rest is left after an instruction.

For a function whose blocks were made of a stream, `Stands stream pc es` places the program counter
in the stream, with `es` in front of it up to the end of the whole function. Branches go to what
stands behind a label (`Image.enter`).
-/

namespace ImpSSA.Machine
open IR

/-- The items are what is left of the block, and the program counter is at the first of them. -/
def At (p : Program) (pc : Pc) (items : List (InstrId × Item)) : Prop :=
  ∃ b pre, p.block? pc.fn pc.block = some b ∧ b.ids.Nodup ∧ b.items = pre ++ items ∧
    items.head?.map (·.1) = some pc.id

/-- The item in front is the one that is fetched. -/
lemma At.fetch {p pc i x rest} (h : At p pc ((i, x) :: rest)) :
    ∃ b, fetch p pc = .ok (b, x) ∧ pc.id = i := by
  obtain ⟨b, pre, block, nd, eq, first⟩ := h
  cases first
  refine ⟨b, ?_, rfl⟩
  rw [Machine.fetch, block]
  simp only [Block.item?_append nd eq]
  rfl

/-- An instruction in front is executed, and goes on with the rest. -/
lemma At.instr {p s i x rest} (h : At p s.pc ((i, .instr x) :: rest)) (more : rest ≠ []) :
    ∃ next, next.fn = s.pc.fn ∧ next.block = s.pc.block ∧ At p next rest ∧
      ∀ o, InstrExec p s next x o → step p s = o := by
  obtain ⟨b, fetched, rfl⟩ := h.fetch
  obtain ⟨b', pre, block, nd, eq, _⟩ := h
  obtain rfl : b' = b := by
    unfold Machine.fetch at fetched
    rw [block] at fetched
    simp only [Block.item?_append nd eq] at fetched
    cases fetched
    rfl
  cases rest with
  | nil => exact absurd rfl more
  | cons y rest =>
    obtain ⟨j, y⟩ := y
    refine ⟨{ s.pc with id := j }, rfl, rfl, ?_, ?_⟩
    · exact ⟨b', pre ++ [(s.pc.id, .instr x)], block, nd, by simp [eq], rfl⟩
    · intro o rule
      exact (Exec.instr fetched (Block.nextId?_append nd eq) rule).step_eq

/-- A terminator in front is executed. -/
lemma At.term {p s i t rest o} (h : At p s.pc ((i, .term t) :: rest)) (rule : TermExec p s t o) :
    step p s = o := by
  obtain ⟨b, fetched, _⟩ := h.fetch
  exact (Exec.term fetched rule).step_eq

/-- The blocks of a function are those of a stream with distinct labels and identifiers. -/
structure Image (p : Program) (fn : Key) (whole : List Elem) : Prop where
  blocks : ∃ d, p.definition? fn = some d ∧ stream d.blocks = whole
  labels : (whole.filterMap Elem.label?).Nodup
  ids : (whole.filterMap Elem.id?).Nodup

/-- The program counter stands in front of `es`, behind its label and code of the same block. -/
def Stands (whole : List Elem) (pc : Pc) (es : List Elem) : Prop :=
  ∃ pre code, whole = pre ++ .label pc.block :: (instrs code ++ es) ∧
    (region es).head?.map (·.1) = some pc.id

section
variable {p : Program} {fn : Key} {whole : List Elem}

/-- A label of the stream is that of a block. -/
lemma Image.block {pre l es} (image : Image p fn whole) (eq : whole = pre ++ .label l :: es) :
    ∃ b, p.block? fn l = some b ∧ b.ids.Nodup ∧ b.items = region es := by
  obtain ⟨d, defn, whole_eq⟩ := image.blocks
  have labels : d.labels.Nodup := by
    have nd := image.labels
    rwa [← whole_eq, filterMap_label?_stream] at nd
  have ids : (d.blocks.flatMap Block.ids).Nodup := by
    have nd := image.ids
    rwa [← whole_eq, filterMap_id?_stream] at nd
  obtain ⟨b, mem, rfl, items⟩ := exists_block_of_stream (whole_eq.trans eq)
  refine ⟨b, ?_, ?_, items⟩
  · rw [Program.block?, defn]
    exact Definition.block?_eq labels mem
  · exact (List.nodup_flatMap.1 ids).1 b mem

/-- What stands in front of the program counter up to the next label is left of its block. -/
lemma Stands.at {pc es} (image : Image p fn whole) (h : Stands whole pc es) (here : pc.fn = fn) :
    At p pc (region es) := by
  obtain ⟨pre, code, eq, first⟩ := h
  obtain ⟨b, block, nd, items⟩ := image.block eq
  rw [region_instrs] at items
  exact ⟨b, code, by rw [here]; exact block, nd, items, first⟩

/-- What is left of a block behind executed code stands in front of the program counter. -/
lemma Stands.advance {pc pc' code es} (h : Stands whole pc (instrs code ++ es))
    (block : pc'.block = pc.block) (left : At p pc' (region es)) : Stands whole pc' es := by
  obtain ⟨pre, code', eq, _⟩ := h
  obtain ⟨_, _, _, _, _, first⟩ := left
  refine ⟨pre, code' ++ code, ?_, first⟩
  rw [eq, block, instrs_append, List.append_assoc]

/-- Behind an instruction the counter stands at the rest of the stream. -/
lemma Stands.next {pc pc' i x es} (h : Stands whole pc (.instr i x :: es))
    (block : pc'.block = pc.block) (left : At p pc' (region es)) : Stands whole pc' es := by
  have code : Stands whole pc (instrs [(i, x)] ++ es) := h
  exact code.advance block left

/-- A branch to a label goes to what stands behind it. -/
lemma Image.enter {pre l es} (image : Image p fn whole) (eq : whole = pre ++ .label l :: es) :
    ∃ pc, enter p fn l = .ok pc ∧ pc.fn = fn ∧ Stands whole pc es := by
  obtain ⟨b, block, _, items⟩ := image.block eq
  refine ⟨⟨fn, l, b.firstId⟩, ?_, rfl, pre, [], eq, ?_⟩
  · rw [Machine.enter, block]
    rfl
  · rw [← items]
    obtain ⟨label, code, term⟩ := b
    cases code <;> rfl

/-- A call starts at what stands behind the first label. -/
lemma Image.start {d l es} (image : Image p fn (.label l :: es)) (defn : p.definition? fn = some d) :
    ∃ pc, startOf d = some pc ∧ pc.fn = fn ∧ Stands (.label l :: es) pc es := by
  obtain ⟨pc, entered, here, stands⟩ := image.enter (List.nil_append _).symm
  refine ⟨pc, ?_, here, stands⟩
  obtain ⟨d', defn', written⟩ := image.blocks
  obtain rfl : d' = d := Option.some.inj (defn'.symm.trans defn)
  obtain ⟨_, rfl⟩ := Program.mem_of_definition? defn
  obtain ⟨name, ty, params, blocks⟩ := d'
  cases blocks with
  | nil => cases written
  | cons b bs =>
    -- the first block carries the first label, and a call starts at the block found for that label
    cases (List.cons.inj written).1
    rw [startOf]
    rw [Machine.enter, Program.block?, defn, Option.bind_some] at entered
    cases found : Definition.block? ⟨name, ty, params, b :: bs⟩ b.label with
    | none =>
      rw [found] at entered
      cases entered
    | some b' =>
      rw [found] at entered
      cases entered
      simp only [found, Option.getD_some]

end

end ImpSSA.Machine
