import ImpSSA.Text.Quoted
import ImpSSA.Node.Basic

/-!
# Descriptions of nodes

The record form of a tree, used where a message has to show a node that cannot be written as IMP
text, and the messages themselves.
-/

namespace ImpSSA

open Text (record quote)

/-- The record name of an operator. -/
def ArithOp.recordName : ArithOp → String
  | .plus => "APlus"
  | .minus => "AMinus"
  | .times => "AMult"

/-- The record name of a comparison. -/
def CmpOp.recordName : CmpOp → String
  | .eq => "BEq"
  | .le => "BLe"

/-- The record name of a foreign node. -/
def Category.foreignName : Category → String
  | .arith => "OtherA"
  | .bool => "OtherB"
  | .command => "OtherC"

namespace Node

/-- A tree as nested records. -/
def describe : Node → String
  | .num n => record "ANum" [("value", toString n)]
  | .var x => record "AId" [("name", quote x)]
  | .arith op l r => record op.recordName [("left", l.describe), ("right", r.describe)]
  | .bool b => record (if b then "BTrue" else "BFalse") []
  | .cmp op l r => record op.recordName [("left", l.describe), ("right", r.describe)]
  | .not b => record "BNot" [("operand", b.describe)]
  | .and l r => record "BAnd" [("left", l.describe), ("right", r.describe)]
  | .skip => record "CSkip" []
  | .assign x e => record "CAss" [("name", quote x), ("value", e.describe)]
  | .seq c d => record "CSeq" [("first", c.describe), ("second", d.describe)]
  | .cond b c d =>
    record "CIf" [("cond", b.describe), ("then", c.describe), ("els", d.describe)]
  | .loop b c => record "CWhile" [("cond", b.describe), ("body", c.describe)]
  | .foreign k => record k.foreignName []

/-- A node found where it has no meaning. -/
inductive Misplaced where
  | notNode (n : Node)
  | notArith (n : Node)
  | notBool (n : Node)
  | notCommand (n : Node)
  deriving DecidableEq, Repr

/-- What is reported of a misplaced node. -/
def Misplaced.message : Misplaced → String
  | .notNode n => "not an IMP node: " ++ n.describe
  | .notArith n => "not an arithmetic expression: " ++ n.describe
  | .notBool n => "not a boolean expression: " ++ n.describe
  | .notCommand n => "not a command: " ++ n.describe

end Node

end ImpSSA
