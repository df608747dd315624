import ImpSSA.IR.Describe

/-!
# From a stream of elements to blocks

Generated code is a flat stream of labels, instructions and terminators. `assemble` cuts it into
blocks at the labels, going from its end to its front: each label closes the block of what came
after it. A label with nothing after it opens no block.
-/

namespace ImpSSA.IR

/-- An element of generated code. -/
inductive Elem where
  | label (k : Key)
  | instr (i : InstrId) (item : Item)
  | term (i : InstrId) (item : Item)
  | foreign
  deriving Repr

/-- Why a stream has no blocks. -/
inductive AssemblyError where
  | unterminated (label : Key)
  | unterminatedEntry (label : Key)
  | unexpected
  deriving DecidableEq, Repr

/-- What is reported of an error. -/
def AssemblyError.message : AssemblyError → String
  | .unterminated label => "terminator not found for block " ++ label.text
  | .unterminatedEntry label => "terminator not found for entry block " ++ label.text
  | .unexpected => "unexpected element " ++ Text.record "OtherElem" []

/-- The blocks behind a place of the stream, and what stands between it and the first of them. -/
structure Pending where
  code : List (InstrId × Item)
  term : Option (InstrId × Item)
  blocks : List Block

/-- The end of a stream. -/
def Pending.empty : Pending := ⟨[], none, []⟩

/-- Puts an element in front. Of two terminators before a label the first one in the stream stays. -/
def Pending.prepend (e : Elem) (p : Pending) : Except AssemblyError Pending :=
  match e with
  | .label k =>
    match p.term, p.code with
    | some t, code => pure ⟨[], none, ⟨k, code, t⟩ :: p.blocks⟩
    | none, [] => pure p
    | none, _ :: _ => throw (.unterminated k)
  | .instr i item => pure { p with code := (i, item) :: p.code }
  | .term i item => pure { p with term := some (i, item) }
  | .foreign => throw .unexpected

/-- The blocks of a stream; what comes before its first label is the block `entry`. -/
def assemble (entry : Key) (elems : List Elem) : Except AssemblyError (List Block) := do
  let p ← elems.foldrM Pending.prepend .empty
  match p.term with
  | some t => pure (⟨entry, p.code, t⟩ :: p.blocks)
  | none => throw (.unterminatedEntry entry)

end ImpSSA.IR
