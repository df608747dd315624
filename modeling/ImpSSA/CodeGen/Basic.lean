import ImpSSA.Node.Describe
import ImpSSA.IR.Assemble

/-!
# Emitting code

A generator has two counters, one for registers and labels and one for items without a result, and
the stream of elements emitted so far. Its stream can be taken once; after that nothing may be
emitted. What a failed action took from a counter or emitted stays.
-/

namespace ImpSSA

open IR

/-- Why no code is generated. -/
inductive CompileError where
  | closed
  | alreadyFinished
  | unknownName (x : String)
  | unsupportedArith (n : Node)
  | unsupportedBool (n : Node)
  | unsupportedCommand (n : Node)
  | noCell (x : String)
  | assembly (e : AssemblyError)
  deriving DecidableEq, Repr

/-- What is reported of an error. -/
def CompileError.message : CompileError → String
  | .closed => "emit after code generation finished"
  | .alreadyFinished => "code generation state already finished"
  | .unknownName x => "identifier not found: " ++ x
  | .unsupportedArith n => "unsupported arithmetic expression " ++ n.describe
  | .unsupportedBool n => "unsupported boolean expression " ++ n.describe
  | .unsupportedCommand n => "unsupported command " ++ n.describe
  | .noCell x => Text.quote x
  | .assembly e => e.message

/-- The state of a generator. -/
structure CodeGen where
  nextLocal : Nat
  nextVoid : Nat
  elems : Array Elem
  finished : Bool

/-- A generator that has emitted nothing. -/
def CodeGen.start : CodeGen := ⟨1, 1, #[], false⟩

/-- Actions of a generator. -/
abbrev Gen := EStateM CompileError CodeGen

namespace Gen

/-- A new register. -/
def freshLocal : Gen Nat :=
  modifyGet fun g => (g.nextLocal, { g with nextLocal := g.nextLocal + 1 })

/-- A new label; labels and registers are numbered together. -/
def freshLabel : Gen Key := do
  let n ← freshLocal
  pure (.anon n)

/-- A new number for an item without a result. -/
def freshVoid : Gen InstrId :=
  modifyGet fun g => (.void g.nextVoid, { g with nextVoid := g.nextVoid + 1 })

/-- Adds an element to the stream. -/
def push (e : Elem) : Gen Unit := do
  if (← get).finished then throw .closed
  modify fun g => { g with elems := g.elems.push e }

/-- Emits an item with a result, which is the value. -/
def emit (item : Item) : Gen Value := do
  let n ← freshLocal
  push (.instr (.result (.anon n)) item)
  pure (.register (.anon n))

/-- Emits an item without a result. -/
def emitVoid (item : Item) : Gen Unit := do
  let i ← freshVoid
  push (.instr i item)

/-- Emits an item in terminator position. -/
def terminate (item : Item) : Gen Unit := do
  let i ← freshVoid
  push (.term i item)

/-- Emits a label. -/
def label (k : Key) : Gen Unit := push (.label k)

/-- Takes the stream. -/
def finish : Gen (List Elem) := do
  if (← get).finished then throw .alreadyFinished
  modifyGet fun g => (g.elems.toList, { g with elems := #[], finished := true })

end Gen

end ImpSSA
