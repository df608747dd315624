import ImpSSA.Proofs.IR.Stream

/-!
# Control flow between blocks

`Path d done b` is a way through a definition: from its first block along branches to the block `b`,
with the items `done` executed before `b` is entered.

Where a stream is written down before it is cut into blocks, its branches belong to the label in
front of them. `Carried R l es` says that the branches of a stream that begins under the label `l`
carry `R` from labels to labels; `carried_stream` obtains it from the blocks.
-/

namespace ImpSSA.IR

/-- The labels that the end of a block may go to. -/
def Block.targets (b : Block) : List Key :=
  match b.term.2 with
  | .term t => t.targets
  | .instr _ => []

/-- In a well-formed block the end goes to labels of the definition. -/
lemma Block.WellFormed.mem_labels {b : Block} {labels : List Key} {p : Program}
    (wf : b.WellFormed labels p) : ∀ k ∈ b.targets, k ∈ labels := by
  intro k mem
  unfold Block.targets at mem
  split at mem
  · rename_i t eq
    exact wf.targets eq k mem
  · cases mem

/-- Ways from the first block of a definition to a block, with the items executed before it. -/
inductive Path (d : Definition) : List (InstrId × Item) → Block → Prop where
  | start {b} :
    d.blocks.head? = some b →
    Path d [] b
  | branch {done b b'} :
    Path d done b →
    b' ∈ d.blocks →
    b'.label ∈ b.targets →
    Path d (done ++ b.items) b'

section
variable {d : Definition} {done : List (InstrId × Item)} {b : Block}

/-- A path leads to a block of the definition. -/
lemma Path.mem (h : Path d done b) : b ∈ d.blocks := by
  cases h with
  | start first => exact List.mem_of_head? first
  | branch _ mem _ => exact mem

/-- A path is at the first block, or has executed it. -/
lemma Path.first {b₀ : Block} (h : Path d done b) (first : d.blocks.head? = some b₀) :
    b = b₀ ∨ b₀.items ⊆ done := by
  induction h with
  | start first' => exact .inl (Option.some.inj (first'.symm.trans first))
  | @branch done b _ _ _ _ ih =>
    refine .inr ?_
    rcases ih with rfl | sub
    · exact List.subset_append_right _ _
    · exact List.Subset.trans sub (List.subset_append_left _ _)

end

/-- The label in force behind a stream that begins under the label `l`. -/
def lastLabel (l : Key) : List Elem → Key
  | [] => l
  | .label k :: es => lastLabel k es
  | _ :: es => lastLabel l es

/-- The branches of a stream that begins under the label `l` carry `R` on. -/
def Carried (R : Key → Prop) (l : Key) : List Elem → Prop
  | [] => True
  | .label k :: es => Carried R k es
  | .term _ (.term t) :: es => (R l → ∀ k ∈ t.targets, R k) ∧ Carried R l es
  | _ :: es => Carried R l es

section
variable {R : Key → Prop}

/-- What is carried through a stream is carried on behind it from its last label. -/
lemma carried_append {l : Key} {es es' : List Elem} :
    Carried R l (es ++ es') ↔ Carried R l es ∧ Carried R (lastLabel l es) es' := by
  induction es generalizing l with
  | nil => simp [Carried, lastLabel]
  | cons e es ih =>
    cases e with
    | label k => exact ih
    | term i x =>
      cases x with
      | term t => exact (and_congr_right' ih).trans and_assoc.symm
      | instr => exact ih
    | instr | foreign => exact ih

/-- Instructions do not branch. -/
lemma carried_instrs {l : Key} {code : List (InstrId × Item)} {es : List Elem} :
    Carried R l (instrs code ++ es) ↔ Carried R l es := by
  induction code with
  | nil => rfl
  | cons x code ih => exact ih

/-- The last label is the one at the front or one of the stream. -/
lemma lastLabel_mem (l : Key) (es : List Elem) :
    lastLabel l es = l ∨ lastLabel l es ∈ es.filterMap Elem.label? := by
  induction es generalizing l with
  | nil => exact .inl rfl
  | cons e es ih =>
    cases e with
    | label k =>
      refine .inr ?_
      rcases ih k with eq | mem
      · rw [lastLabel, eq]
        exact List.mem_cons_self
      · exact List.mem_cons_of_mem _ mem
    | instr | term | foreign => exact ih l

/-- What holds of the label at the front and of all labels of a stream holds of the last one. -/
lemma of_lastLabel {l : Key} {es : List Elem} (start : R l)
    (labels : ∀ k ∈ es.filterMap Elem.label?, R k) : R (lastLabel l es) := by
  rcases lastLabel_mem l es with eq | mem
  · rw [eq]
    exact start
  · exact labels _ mem

/-- What the blocks carry on is carried on by their stream. -/
lemma carried_stream {bs : List Block} (h : ∀ b ∈ bs, R b.label → ∀ k ∈ b.targets, R k) (l : Key) :
    Carried R l (stream bs) := by
  induction bs generalizing l with
  | nil => trivial
  | cons b bs ih =>
    obtain ⟨first, others⟩ := List.forall_mem_cons.1 h
    rw [stream, List.flatMap_cons, Block.elems, List.cons_append, Carried, List.append_assoc,
      carried_instrs]
    obtain ⟨label, code, i, x⟩ := b
    cases x with
    | term t => exact ⟨first, ih others label⟩
    | instr => exact ih others label

end

end ImpSSA.IR
