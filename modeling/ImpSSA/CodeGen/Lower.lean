import ImpSSA.Word
import ImpSSA.CodeGen.Basic

/-!
# Code for expressions and commands

Every variable has a cell in memory, and a context gives the pointer to it. Expressions leave their
value in an operand; literals need no code. Conditionals and loops take their three labels before
anything else.
-/

namespace ImpSSA

open IR

/-- Pointers to the cells of variables. -/
abbrev Context := Table String Value

/-- The pointer to the cell of `x`. -/
def Context.pointer (ctx : Context) (x : String) : Gen Value :=
  match ctx.get? x with
  | some p => pure p
  | none => throw (.unknownName x)

/-- The instruction's name of an operator. -/
def ArithOp.lower : ArithOp → BinaryOp
  | .plus => .add
  | .minus => .sub
  | .times => .mul

/-- The instruction's name of a comparison. -/
def CmpOp.lower : CmpOp → Condition
  | .eq => .eq
  | .le => .sle

namespace Node

/-- Code for an arithmetic expression. -/
def lowerArith (ctx : Context) : Node → Gen Value
  | .num n => pure (.int (wrap64 n))
  | .var x => do
    let p ← ctx.pointer x
    Gen.emit (.instr (.load .i64 p))
  | .arith op l r => do
    let u ← l.lowerArith ctx
    let v ← r.lowerArith ctx
    Gen.emit (.instr (.binop op.lower .i64 u v))
  | n => throw (.unsupportedArith n)

/-- Code for a boolean expression. -/
def lowerBool (ctx : Context) : Node → Gen Value
  | .bool b => pure (.bool b)
  | .cmp op l r => do
    let u ← l.lowerArith ctx
    let v ← r.lowerArith ctx
    Gen.emit (.instr (.icmp op.lower .i64 u v))
  | .not b => do
    let v ← b.lowerBool ctx
    Gen.emit (.instr (.binop .xor .i1 v (.bool true)))
  | .and l r => do
    let u ← l.lowerBool ctx
    let v ← r.lowerBool ctx
    Gen.emit (.instr (.binop .and .i1 u v))
  | n => throw (.unsupportedBool n)

/-- Code for a command. -/
def lowerCommand (ctx : Context) : Node → Gen Unit
  | .skip => pure ()
  | .assign x e => do
    let v ← e.lowerArith ctx
    let p ← ctx.pointer x
    Gen.emitVoid (.instr (.store .i64 v p))
  | .seq c d => do
    c.lowerCommand ctx
    d.lowerCommand ctx
  | .cond b c d => do
    let thenLabel ← Gen.freshLabel
    let elseLabel ← Gen.freshLabel
    let mergeLabel ← Gen.freshLabel
    let v ← b.lowerBool ctx
    Gen.terminate (.term (.condBr v thenLabel elseLabel))
    Gen.label thenLabel
    c.lowerCommand ctx
    Gen.terminate (.term (.br mergeLabel))
    Gen.label elseLabel
    d.lowerCommand ctx
    Gen.terminate (.term (.br mergeLabel))
    Gen.label mergeLabel
  | .loop b c => do
    let entryLabel ← Gen.freshLabel
    let bodyLabel ← Gen.freshLabel
    let exitLabel ← Gen.freshLabel
    Gen.terminate (.term (.br entryLabel))
    Gen.label entryLabel
    let v ← b.lowerBool ctx
    Gen.terminate (.term (.condBr v bodyLabel exitLabel))
    Gen.label bodyLabel
    c.lowerCommand ctx
    Gen.terminate (.term (.br entryLabel))
    Gen.label exitLabel
  | n => throw (.unsupportedCommand n)

end Node

/-- One zeroed cell for each name. The last name is allocated first and has the lowest address. -/
def allocate : List String → Gen Context
  | [] => pure ∅
  | x :: xs => do
    let ctx ← allocate xs
    let p ← Gen.emit (.instr (.alloca .i64))
    Gen.emitVoid (.instr (.store .i64 (.int 0) p))
    pure (ctx.insert x p)

/-- The external function that takes the value of a variable. -/
def printName : Key := .named "print"

/-- Calls of the external function with the value of each name. -/
def lowerPrints (ctx : Context) : List String → Gen Unit
  | [] => pure ()
  | x :: xs => do
    match ctx.get? x with
    | none => throw (.noCell x)
    | some p =>
      let v ← Gen.emit (.instr (.load .i64 p))
      Gen.emitVoid (.instr (.call .void (.global printName) [(.i64, v)]))
      lowerPrints ctx xs

end ImpSSA
