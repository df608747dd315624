import ImpSSA.IR.Describe
import ImpSSA.IR.Print

/-!
# States of the block machine

A state is a program counter, the registers of the running function, the suspended callers and
memory. Memory only grows; a cell belongs to the depth of the stack at which it was allocated and
dies when that function returns. A fault is an answer of the program; a crash means that the program
is not well formed where it runs. The limits that a runtime puts on the digits of a number in text and on
the depth of recursion are left out: the stack and memory have no bound, and a fault shows any value.
-/

namespace ImpSSA.Machine

open IR

/-- The place of an item: function, block and identifier. -/
structure Pc where
  fn : Key
  block : Key
  id : InstrId
  deriving DecidableEq, Repr

/-- A cell of memory. -/
structure Cell where
  value : Value
  depth : Int
  live : Bool
  deriving Repr

/-- Values of registers. -/
abbrev Env := Table Key Value

/-- A suspended caller: its registers, where it goes on and the register that takes the result. -/
structure Frame where
  env : Env
  ret : Pc
  dest : Option Key

/-- A state; the caller suspended last comes first. -/
structure State where
  pc : Pc
  env : Env
  stack : List Frame
  memory : List Cell

/-- The values of all cells. -/
def State.snapshot (s : State) : List Value := s.memory.map (·.value)

/-- What a program can do wrong when it runs. -/
inductive Fault where
  | unknownBlock (fn label : Key)
  | invalidCounter (i : InstrId) (block : Key)
  | undefinedRegister (k : Key)
  | undefinedGlobal (k : Key)
  | nestedOperator (v : Value)
  | forgedPointer (v : Value)
  | elementOfNonPointer (v : Value)
  | elementOutOfBounds (v : Value)
  | unknownOperator (name : String)
  | unknownComparison (name : String)
  | mismatch (what : String) (l r : Value)
  | divisionByZero (op : BinaryOp)
  | nonPointer (v : Value)
  | foreignPointer (v : Value)
  | stalePointer (v : Value)
  | nonFunction (v : Value)
  | arity (fn : Key) (params args : Nat)
  | unknownFunction (fn : Key)
  | nonBoolean (v : Value)
  | voidResult (dest : Key)
  | unsupportedInstr (i : Instr)
  | unsupportedTerm (t : Term)

/-- What is reported of a fault. -/
def Fault.message : Fault → String
  | .unknownBlock fn label => "unknown block " ++ label.text ++ " in @" ++ fn.text
  | .invalidCounter i block =>
    "invalid program counter " ++ i.describe ++ " in block " ++ block.text
  | .undefinedRegister k => "undefined identifier %" ++ k.text
  | .undefinedGlobal k => "undefined global @" ++ k.text
  | .nestedOperator v => "nested operator expression " ++ v.text
  | .forgedPointer v => "forged pointer " ++ v.text ++ " in operand"
  | .elementOfNonPointer v => "getelementptr on non-pointer " ++ v.text
  | .elementOutOfBounds v => "getelementptr index " ++ v.text ++ " out of bounds"
  | .unknownOperator name => "unknown binary operator " ++ name
  | .unknownComparison name => "unknown comparison " ++ name
  | .mismatch what l r => "type mismatch in " ++ what ++ ": " ++ l.text ++ ", " ++ r.text
  | .divisionByZero op => "division by zero in " ++ op.name
  | .nonPointer v => "dereference of non-pointer " ++ v.text
  | .foreignPointer v => "dereference of foreign pointer " ++ v.text
  | .stalePointer v => "dereference of stale pointer " ++ v.text
  | .nonFunction v => "call of non-function " ++ v.text
  | .arity fn params args =>
    "@" ++ fn.text ++ " expects " ++ toString params ++ " args, got " ++ toString args
  | .unknownFunction fn => "call to unknown function @" ++ fn.text
  | .nonBoolean v => "branch on non-boolean " ++ v.text
  | .voidResult dest => "void return bound to %" ++ dest.text
  | .unsupportedInstr i => "unsupported instruction " ++ i.describe
  | .unsupportedTerm t => "unsupported terminator " ++ t.describe

/-- What stops the machine itself. -/
inductive Crash where
  /-- An instruction stands where nothing comes after it. -/
  | noSuccessor (i : InstrId)
  /-- A function without blocks was called. -/
  | noEntryBlock
  deriving DecidableEq, Repr

/-- What is reported of a crash. -/
def Crash.message : Crash → String
  | .noSuccessor i => i.describe
  | .noEntryBlock => "tuple index out of range"

/-- Why an item was not executed. -/
inductive Stop where
  | fault (f : Fault)
  | crash (c : Crash)

/-- Kinds of internal steps. -/
inductive Event where
  | step
  | call
  | ret
  deriving DecidableEq, Repr

/-- What one step leads to. -/
inductive Outcome where
  | stepped (s : State) (e : Event)
  | external (s : State) (name : Key) (args : List Value)
  | terminated (memory : List Value) (v : Option Value)
  | faulted (f : Fault)
  | crashed (c : Crash)

/-- The state in which a run goes on. -/
def Outcome.next? : Outcome → Option State
  | .stepped s _ | .external s _ _ => some s
  | .terminated .. | .faulted _ | .crashed _ => none

end ImpSSA.Machine
