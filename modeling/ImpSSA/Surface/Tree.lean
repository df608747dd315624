import ImpSSA.Node.Basic
import ImpSSA.Surface.Token

/-!
# Located trees

Expressions as they were written, each with its place, and the check that turns them into nodes:
`Expr.toNode` and `Com.toNode` reject an expression of the wrong category at its own place.
-/

namespace ImpSSA.Surface

/-- Why a text is not a program. -/
inductive ParseError where
  /-- What stands at `pos` cannot go on any program. -/
  | unexpected (pos : Pos)
  /-- An expression of another category stands where one of category `k` belongs. -/
  | misplaced (k : Category) (pos : Pos)
  deriving DecidableEq, Repr

/-- The place of an error. -/
def ParseError.pos : ParseError → Pos
  | .unexpected pos | .misplaced _ pos => pos

/-- What an error is about. -/
def ParseError.reason : ParseError → String
  | .unexpected _ => "syntax error"
  | .misplaced .arith _ => "expected an arithmetic expression"
  | .misplaced .bool _ => "expected a boolean expression"
  | .misplaced .command _ => "expected a command"

/-- What is reported of an error. -/
def ParseError.message (e : ParseError) : String :=
  toString e.pos.line ++ ":" ++ toString e.pos.col ++ ": " ++ e.reason

/-- Binary operators of expressions. -/
inductive BinOp where
  | arith (op : ArithOp)
  | cmp (op : CmpOp)
  | and
  deriving DecidableEq, Repr

/-- The category of both operands. -/
def BinOp.operands : BinOp → Category
  | .arith _ | .cmp _ => .arith
  | .and => .bool

/-- The node of an operator and its operands. -/
def BinOp.node : BinOp → Node → Node → Node
  | .arith op => .arith op
  | .cmp op => .cmp op
  | .and => .and

/-- Expressions with their places. -/
inductive Expr where
  | int (pos : Pos) (n : Int)
  | var (pos : Pos) (x : String)
  | bool (pos : Pos) (b : Bool)
  | not (pos : Pos) (e : Expr)
  | binary (pos : Pos) (op : BinOp) (l r : Expr)
  deriving DecidableEq, Repr

/-- Where an expression starts, without parentheses around the whole of it. -/
def Expr.pos : Expr → Pos
  | .int pos _ | .var pos _ | .bool pos _ | .not pos _ | .binary pos .. => pos

/-- Commands over located expressions. -/
inductive Com where
  | skip
  | assign (x : String) (e : Expr)
  | seq (c d : Com)
  | cond (b : Expr) (c d : Com)
  | loop (b : Expr) (c : Com)
  deriving DecidableEq, Repr

/-- The node `n`, which was written at `pos`, if it is of category `k`. -/
def expect (k : Category) (pos : Pos) (n : Node) : Except ParseError Node :=
  if n.category = k then pure n else throw (.misplaced k pos)

/-- The node of an expression; operands are checked from left to right, the innermost first. -/
def Expr.toNode : Expr → Except ParseError Node
  | .int _ n => pure (.num n)
  | .var _ x => pure (.var x)
  | .bool _ b => pure (.bool b)
  | .not _ e => return .not (← expect .bool e.pos (← e.toNode))
  | .binary _ op l r => do
    let l' ← expect op.operands l.pos (← l.toNode)
    let r' ← expect op.operands r.pos (← r.toNode)
    return op.node l' r'

/-- The node of a command. -/
def Com.toNode : Com → Except ParseError Node
  | .skip => pure .skip
  | .assign x e => return .assign x (← expect .arith e.pos (← e.toNode))
  | .seq c d => return .seq (← c.toNode) (← d.toNode)
  | .cond b c d => do
    let b' ← expect .bool b.pos (← b.toNode)
    return .cond b' (← c.toNode) (← d.toNode)
  | .loop b c => do
    let b' ← expect .bool b.pos (← b.toNode)
    return .loop b' (← c.toNode)

end ImpSSA.Surface
