import ImpSSA.IR.Describe

/-!
# Well-formed programs

`Program.verify` accepts a program whose functions have distinct names and whose definitions have
blocks, parameters for their types, distinct labels and identifiers, terminators in terminator
position and nowhere else, branches to their own labels, and direct calls of known functions. The
first violation met is reported.
-/

namespace ImpSSA.IR

/-- A violation. -/
inductive VerifyError where
  | duplicateEntity (name : Key)
  | noBlocks (fn : Key)
  | paramCount (fn : Key) (params types : Nat)
  | duplicateLabel (fn label : Key)
  | missingTerminator (fn label : Key)
  | straightTerminator (fn label : Key)
  | duplicateId (fn label : Key) (i : InstrId)
  | unknownLabel (fn label target : Key)
  | unknownCallee (fn label callee : Key)
  deriving DecidableEq, Repr

/-- What is reported of a violation. -/
def VerifyError.message : VerifyError → String
  | .duplicateEntity name => "@" ++ name.text ++ ": defined twice"
  | .noBlocks fn => fn.text ++ ": definition has no blocks"
  | .paramCount fn params types =>
    fn.text ++ ": " ++ toString params ++ " params for " ++ toString types ++ " argument types"
  | .duplicateLabel fn label => fn.text ++ ":" ++ label.text ++ ": duplicate block label"
  | .missingTerminator fn label => fn.text ++ ":" ++ label.text ++ ": missing terminator"
  | .straightTerminator fn label =>
    fn.text ++ ":" ++ label.text ++ ": terminator in instruction position"
  | .duplicateId fn label i =>
    fn.text ++ ":" ++ label.text ++ ": instruction id " ++ i.describe ++ " defined twice"
  | .unknownLabel fn label target =>
    fn.text ++ ":" ++ label.text ++ ": branch to unknown label " ++ target.text
  | .unknownCallee fn label callee =>
    fn.text ++ ":" ++ label.text ++ ": call to unknown function @" ++ callee.text

/-- Refuses with `e` unless `ok` holds. -/
def require (ok : Bool) (e : VerifyError) : Except VerifyError Unit :=
  if ok then pure () else throw e

/-- Checks that keys are new to those `seen`, in order. -/
def checkDistinct (err : Key → VerifyError) : (seen : List Key) → List Key → Except VerifyError Unit
  | _, [] => pure ()
  | seen, k :: ks => do
    require (!seen.contains k) (err k)
    checkDistinct err (k :: seen) ks

/-- Checks code from left to right; the result has its identifiers added to those `seen`. -/
def checkCode (fn label : Key) :
    (seen : List InstrId) → List (InstrId × Item) → Except VerifyError (List InstrId)
  | seen, [] => pure seen
  | seen, (i, item) :: rest => do
    require (!item.isTerm) (.straightTerminator fn label)
    require (!seen.contains i) (.duplicateId fn label i)
    checkCode fn label (i :: seen) rest

/-- Checks a block against the labels of its function and the identifiers `seen` before it. -/
def Block.check (b : Block) (fn : Key) (labels : List Key) (seen : List InstrId) :
    Except VerifyError (List InstrId) :=
  match b.term with
  | (_, .instr _) => throw (.missingTerminator fn b.label)
  | (i, .term t) => do
    let seen ← checkCode fn b.label seen b.code
    require (!seen.contains i) (.duplicateId fn b.label i)
    t.targets.forM fun target =>
      require (labels.contains target) (.unknownLabel fn b.label target)
    pure (i :: seen)

/-- Checks blocks from left to right. -/
def checkBlocks (fn : Key) (labels : List Key) :
    (seen : List InstrId) → List Block → Except VerifyError Unit
  | _, [] => pure ()
  | seen, b :: bs => do
    let seen ← b.check fn labels seen
    checkBlocks fn labels seen bs

/-- The function that an item calls directly. -/
def Item.callee? : Item → Option Key
  | .instr (.call _ (.global k) _) => some k
  | _ => none

/-- Checks that the direct calls of a block are known to the program. -/
def Block.checkCalls (b : Block) (fn : Key) (p : Program) : Except VerifyError Unit :=
  (b.code.filterMap fun (_, item) => item.callee?).forM fun k =>
    require (p.knows k) (.unknownCallee fn b.label k)

/-- Checks a definition by itself. -/
def Definition.check (d : Definition) : Except VerifyError Unit := do
  require (!d.blocks.isEmpty) (.noBlocks d.name)
  require (d.params.length = d.type.args.length)
    (.paramCount d.name d.params.length d.type.args.length)
  let labels := d.blocks.map (·.label)
  checkDistinct (.duplicateLabel d.name) [] labels
  checkBlocks d.name labels [] d.blocks

/-- Checks a definition, and its direct calls if the program around it is given. -/
def Definition.verify (d : Definition) (p? : Option Program) : Except VerifyError Unit := do
  d.check
  match p? with
  | some p => d.blocks.forM fun b => b.checkCalls d.name p
  | none => pure ()

/-- Checks a program. -/
def Program.verify (p : Program) : Except VerifyError Unit := do
  checkDistinct .duplicateEntity [] (p.entities.map Entity.name)
  p.definitions.forM fun d => d.verify (some p)

end ImpSSA.IR
