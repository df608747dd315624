import ImpSSA.Proofs.IR.Stream

/-!
# Cutting a stream at its labels

`stretches entry es` cuts a stream at its labels: what stands before the first label belongs to
`entry`, and every label has what stands between it and the next one. Assembly goes through the
stream from its end and keeps what it has not yet given to a label; `Pending.of` says what that is
in terms of the cut, and `foldrM_prepend_eq_ok` when there is anything to keep. Hence assembly
makes the blocks of the stretches, and fails exactly on incomplete streams (`assemble_by_stretches`).
-/

namespace ImpSSA.IR

/-- A label and the elements up to the next one. -/
structure Stretch where
  label : Key
  elems : List Elem

/-- A stretch as a part of a stream. -/
def Stretch.written (s : Stretch) : List Elem := .label s.label :: s.elems

/-- The block of a stretch that has a terminator: all of its instructions, and the first of its
terminators. -/
def Stretch.block? (s : Stretch) : Option Block :=
  (s.elems.findSome? Elem.term?).map fun t => ⟨s.label, s.elems.filterMap Elem.instr?, t⟩

/-- What stands before the first label of a stream, and the stretch of every label. -/
def cut : List Elem → List Elem × List Stretch
  | [] => ([], [])
  | .label k :: es => ([], ⟨k, (cut es).1⟩ :: (cut es).2)
  | e :: es => (e :: (cut es).1, (cut es).2)

/-- The stretches of a stream, where what stands before the first label belongs to `entry`. -/
def stretches (entry : Key) (es : List Elem) : List Stretch := ⟨entry, (cut es).1⟩ :: (cut es).2

/-- Some of the elements is an instruction. -/
def HasInstr (es : List Elem) : Prop := ∃ i x, .instr i x ∈ es

/-- Some of the elements is a terminator. -/
def HasTerm (es : List Elem) : Prop := ∃ i t, .term i t ∈ es

/-- Streams that only consist of known elements and in which terminators are missing at most in
stretches of labels that have no instructions either. -/
structure Complete (es : List Elem) : Prop where
  known : .foreign ∉ es
  entry : HasTerm (cut es).1
  labelled : ∀ s ∈ (cut es).2, HasInstr s.elems → HasTerm s.elems

/-- The only terminator of a stretch is its last element, and the others are instructions. -/
def Stretch.Closed (s : Stretch) : Prop := ∃ code i t, s.elems = instrs code ++ [.term i t]

section
variable (k : Key) (i : InstrId) (x : Item) (es : List Elem)

/-- An empty stream has no stretches. -/
@[simp] lemma cut_nil : cut [] = ([], []) := rfl

/-- A label begins a stretch of its own. -/
@[simp] lemma cut_label : cut (.label k :: es) = ([], stretches k es) := rfl

/-- An instruction belongs to the part up to the next label. -/
@[simp] lemma cut_instr : cut (.instr i x :: es) = (.instr i x :: (cut es).1, (cut es).2) := rfl

/-- A terminator belongs to the part up to the next label. -/
@[simp] lemma cut_term : cut (.term i x :: es) = (.term i x :: (cut es).1, (cut es).2) := rfl

/-- A foreign element belongs to the part up to the next label. -/
@[simp] lemma cut_foreign : cut (.foreign :: es) = (.foreign :: (cut es).1, (cut es).2) := rfl

end

/-! ## The stretches are the stream -/

/-- Written out, the stretches are the stream again. -/
lemma written_stretches (entry : Key) (es : List Elem) :
    (stretches entry es).flatMap Stretch.written = .label entry :: es := by
  have joined : (cut es).1 ++ (cut es).2.flatMap Stretch.written = es := by
    induction es with
    | nil => rfl
    | cons e es ih =>
      cases e with
      | label k => simp [stretches, Stretch.written, ih]
      | instr | term | foreign => simp [ih]
  rw [stretches, List.flatMap_cons, Stretch.written, List.cons_append, joined]

/-- No stretch has a label inside. -/
lemma label?_of_mem_stretches {entry : Key} {es : List Elem} {s : Stretch}
    (mem : s ∈ stretches entry es) : ∀ e ∈ s.elems, e.label? = none := by
  induction es generalizing entry s with
  | nil =>
    cases List.mem_singleton.1 mem
    exact List.forall_mem_nil _
  | cons e es ih =>
    cases e with
    | label k =>
      rcases List.mem_cons.1 mem with rfl | mem
      · exact List.forall_mem_nil _
      · exact ih mem
    | instr | term | foreign =>
      rcases List.mem_cons.1 mem with rfl | mem
      · have first := @ih entry _ List.mem_cons_self
        exact List.forall_mem_cons.2 ⟨rfl, first⟩
      · exact @ih entry _ (List.mem_cons_of_mem _ mem)

/-! ## What assembly keeps -/

/-- There is an instruction if the list of instructions is not empty. -/
lemma hasInstr_iff {es : List Elem} : HasInstr es ↔ es.filterMap Elem.instr? ≠ [] := by
  constructor
  · rintro ⟨i, x, mem⟩
    exact List.ne_nil_of_mem (List.mem_filterMap.2 ⟨_, mem, rfl⟩)
  · intro some
    obtain ⟨x, mem⟩ := List.exists_mem_of_ne_nil _ some
    obtain ⟨e, mem, eq⟩ := List.mem_filterMap.1 mem
    cases e with
    | instr i x => exact ⟨i, x, mem⟩
    | _ => cases eq

/-- There is a terminator if the search for the first one finds it. -/
lemma hasTerm_iff {es : List Elem} : HasTerm es ↔ ∃ t, es.findSome? Elem.term? = some t := by
  constructor
  · rintro ⟨i, t, mem⟩
    exact Option.isSome_iff_exists.1 (List.findSome?_isSome_iff.2 ⟨_, mem, rfl⟩)
  · rintro ⟨t, found⟩
    obtain ⟨e, mem, eq⟩ := List.exists_of_findSome?_eq_some found
    cases e with
    | term i t => exact ⟨i, t, mem⟩
    | _ => cases eq

/-- A label can be put in front of a stream unless it would take instructions without a terminator;
instructions and terminators always can. -/
def Elem.Fits (es : List Elem) : Elem → Prop
  | .label _ => HasInstr (cut es).1 → HasTerm (cut es).1
  | .instr .. | .term .. => True
  | .foreign => False

/-- What assembly keeps at the front of a stream: the items that belong to the next label to come,
and the blocks of the labels behind. -/
def Pending.of (es : List Elem) : Pending :=
  ⟨(cut es).1.filterMap Elem.instr?, (cut es).1.findSome? Elem.term?,
    (cut es).2.filterMap Stretch.block?⟩

/-- An element that fits is put in front of what is kept. -/
lemma prepend_of_fits {e : Elem} {es : List Elem} (fits : e.Fits es) :
    Pending.prepend e (.of es) = .ok (.of (e :: es)) := by
  cases e with
  | label k =>
    simp only [Elem.Fits, hasInstr_iff, hasTerm_iff] at fits
    simp only [Pending.prepend, Pending.of, cut_label, stretches, List.filterMap_cons, Stretch.block?]
    cases term : (cut es).1.findSome? Elem.term? with
    | some t => rfl
    | none =>
      cases code : (cut es).1.filterMap Elem.instr? with
      | nil => rfl
      | cons x code =>
        obtain ⟨t, found⟩ := fits (by simp [code])
        cases term.symm.trans found
  | instr | term => rfl
  | foreign => exact fits.elim

/-- No other element is put in front. -/
lemma fits_of_prepend {e : Elem} {es : List Elem} {p : Pending}
    (ok : Pending.prepend e (.of es) = .ok p) : e.Fits es := by
  cases e with
  | label k =>
    intro code
    rw [hasInstr_iff] at code
    rw [hasTerm_iff]
    simp only [Pending.prepend, Pending.of] at ok
    split at ok
    · rename_i t term
      exact ⟨t, term⟩
    · contradiction
    · cases ok
  | instr | term => trivial
  | foreign => cases ok

/-- Streams in which every element fits to those behind it. -/
def Kept (es : List Elem) : Prop :=
  .foreign ∉ es ∧ ∀ s ∈ (cut es).2, HasInstr s.elems → HasTerm s.elems

/-- An element may stand in front of a stream if it fits to it. -/
lemma kept_cons {e : Elem} {es : List Elem} : Kept (e :: es) ↔ Kept es ∧ e.Fits es := by
  cases e with
  | label k =>
    have known : .foreign ∉ Elem.label k :: es ↔ .foreign ∉ es := by simp
    rw [Kept, known, cut_label, stretches, List.forall_mem_cons, Kept, Elem.Fits]
    tauto
  | instr | term | foreign => simp [Kept, Elem.Fits]

/-- Assembly comes to the front of these streams, and of no others. -/
lemma foldrM_prepend_eq_ok {es : List Elem} {p : Pending} :
    es.foldrM Pending.prepend .empty = .ok p ↔ Kept es ∧ p = .of es := by
  induction es generalizing p with
  | nil =>
    have kept : Kept [] := ⟨List.not_mem_nil, List.forall_mem_nil _⟩
    exact ⟨fun ok => ⟨kept, (Except.ok.inj ok).symm⟩, fun ⟨_, eq⟩ => eq ▸ rfl⟩
  | cons e es ih =>
    rw [List.foldrM_cons, bind_eq_ok, kept_cons]
    constructor
    · rintro ⟨q, front, ok⟩
      obtain ⟨kept, rfl⟩ := ih.1 front
      have fits := fits_of_prepend ok
      rw [prepend_of_fits fits] at ok
      exact ⟨⟨kept, fits⟩, (Except.ok.inj ok).symm⟩
    · rintro ⟨⟨kept, fits⟩, rfl⟩
      exact ⟨_, ih.2 ⟨kept, rfl⟩, prepend_of_fits fits⟩

/-- A complete stream is kept, and has a terminator in front of its first label. -/
lemma complete_iff {es : List Elem} : Complete es ↔ Kept es ∧ HasTerm (cut es).1 :=
  ⟨fun ⟨known, entry, labelled⟩ => ⟨⟨known, labelled⟩, entry⟩,
    fun ⟨⟨known, labelled⟩, entry⟩ => ⟨known, entry, labelled⟩⟩

/-- Complete streams are assembled to the blocks of their stretches. -/
lemma assemble_of_complete (entry : Key) {es : List Elem} (complete : Complete es) :
    assemble entry es = .ok ((stretches entry es).filterMap Stretch.block?) := by
  obtain ⟨kept, term⟩ := complete_iff.1 complete
  obtain ⟨t, found⟩ := hasTerm_iff.1 term
  rw [assemble, foldrM_prepend_eq_ok.2 ⟨kept, rfl⟩, stretches, List.filterMap_cons, Stretch.block?]
  simp only [Pending.of, found]
  rfl

/-- Other streams are not assembled. -/
lemma complete_of_assemble {entry : Key} {es : List Elem} {bs : List Block}
    (ok : assemble entry es = .ok bs) : Complete es := by
  obtain ⟨p, front, ok⟩ := bind_eq_ok.1 ok
  obtain ⟨kept, rfl⟩ := foldrM_prepend_eq_ok.1 front
  refine complete_iff.2 ⟨kept, hasTerm_iff.2 ?_⟩
  split at ok
  · rename_i t term
    exact ⟨t, term⟩
  · cases ok

/-- Assembly cuts the stream at its labels. It succeeds exactly on complete streams: those without
foreign elements, with a terminator before the first label, and with one behind every label that has
instructions. Every stretch with a terminator then is one block, in order, with the label of the
stretch, all of its instructions and its first terminator. On every other stream it fails. -/
theorem assemble_by_stretches (entry : Key) (es : List Elem) :
    (stretches entry es).flatMap Stretch.written = .label entry :: es ∧
    (∀ s ∈ stretches entry es, ∀ e ∈ s.elems, e.label? = none) ∧
    ((∃ bs, assemble entry es = .ok bs) ↔ Complete es) ∧
    (∀ bs, assemble entry es = .ok bs → bs = (stretches entry es).filterMap Stretch.block?) ∧
    (¬ Complete es → ∃ e, assemble entry es = .error e) := by
  refine ⟨written_stretches entry es, fun s mem => label?_of_mem_stretches mem, ?_, ?_, ?_⟩
  · exact ⟨fun ⟨_, ok⟩ => complete_of_assemble ok, fun complete => ⟨_, assemble_of_complete entry complete⟩⟩
  · intro bs ok
    rw [assemble_of_complete entry (complete_of_assemble ok)] at ok
    exact (Except.ok.inj ok).symm
  · intro incomplete
    cases result : assemble entry es with
    | error e => exact ⟨e, rfl⟩
    | ok bs => exact absurd (complete_of_assemble result) incomplete

/-- A stream with an instruction behind a terminator, a label that stands twice and first has nothing,
and a stretch with two terminators. -/
def untidy : List Elem :=
  [.term (.void 1) (.term (.br (.anon 1))), .instr (.result (.anon 2)) (.instr (.alloca .i64)),
    .label (.anon 1), .label (.anon 1), .term (.void 2) (.term .retVoid),
    .term (.void 3) (.term (.br (.anon 0)))]

/-- It is assembled into two blocks, but without its first element it has no terminator for the first
of them. -/
theorem untidy_by_stretches :
    assemble (.anon 0) untidy = .ok
      [⟨.anon 0, [(.result (.anon 2), .instr (.alloca .i64))], (.void 1, .term (.br (.anon 1)))⟩,
        ⟨.anon 1, [], (.void 2, .term .retVoid)⟩] ∧
    ∃ e, assemble (.anon 0) untidy.tail = .error e := by
  obtain ⟨_, _, succeeds, blocks, _⟩ := assemble_by_stretches (.anon 0) untidy
  obtain ⟨_, _, _, _, fails⟩ := assemble_by_stretches (.anon 0) untidy.tail
  have complete : Complete untidy := by
    refine ⟨by simp [untidy], ⟨_, _, List.mem_cons_self⟩, ?_⟩
    simp [untidy, stretches, HasInstr, HasTerm]
  have incomplete : ¬ Complete untidy.tail := by
    rintro ⟨_, entry, _⟩
    simp [untidy, HasTerm] at entry
  obtain ⟨bs, ok⟩ := succeeds.2 complete
  rw [blocks bs ok] at ok
  exact ⟨ok, fails incomplete⟩

/-! ## Streams that lose nothing -/

/-- In the shape that assembly keeps as it is, every stretch ends in its only terminator. -/
lemma Regions.closed {es : List Elem} (h : Regions es) (entry : Key) :
    ∀ s ∈ stretches entry es, s.Closed := by
  induction h generalizing entry with
  | @last i t => exact List.forall_mem_singleton.2 ⟨[], i, t, rfl⟩
  | @instr i x es _ ih =>
    obtain ⟨⟨code, j, t, first⟩, others⟩ := List.forall_mem_cons.1 (ih entry)
    simp only at first
    refine List.forall_mem_cons.2 ⟨⟨(i, x) :: code, j, t, ?_⟩, others⟩
    rw [cut_instr, first]
    rfl
  | @term i t l es _ ih => exact List.forall_mem_cons.2 ⟨⟨[], i, t, rfl⟩, ih l⟩

end ImpSSA.IR
