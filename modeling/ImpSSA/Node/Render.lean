import ImpSSA.Node.Describe

/-!
# IMP text

`Node.render` writes a tree as IMP source. Binary expressions and negative literals are always in
parentheses; a sequence is written flat, so its nesting is the one thing that text does not show. The
limits that a runtime puts on the digits of a number in text and on the depth of recursion are left out:
literals of any length and trees of any depth are written.
-/

namespace ImpSSA

/-- An operator as it is written. -/
def ArithOp.symbol : ArithOp → String
  | .plus => "+"
  | .minus => "-"
  | .times => "*"

/-- A comparison as it is written. -/
def CmpOp.symbol : CmpOp → String
  | .eq => "=="
  | .le => "<="

namespace Node

/-- A literal; a negative one is in parentheses. -/
def renderLiteral (n : Int) : String :=
  if n < 0 then "(" ++ toString n ++ ")" else toString n

/-- A binary expression in parentheses. -/
def renderBinary (l op r : String) : String := "(" ++ l ++ " " ++ op ++ " " ++ r ++ ")"

/-- A tree as IMP source; the leftmost foreign node makes it fail. -/
def render : Node → Except Misplaced String
  | .num n => pure (renderLiteral n)
  | .var x => pure x
  | .arith op l r => return renderBinary (← l.render) op.symbol (← r.render)
  | .bool b => pure (if b then "true" else "false")
  | .cmp op l r => return renderBinary (← l.render) op.symbol (← r.render)
  | .not b => return "!" ++ (← b.render)
  | .and l r => return renderBinary (← l.render) "&&" (← r.render)
  | .skip => pure "SKIP"
  | .assign x e => return x ++ " := " ++ (← e.render)
  | .seq c d => return (← c.render) ++ "; " ++ (← d.render)
  | .cond b c d =>
    return "IF " ++ (← b.render) ++ " THEN " ++ (← c.render) ++ " ELSE " ++ (← d.render) ++ " FI"
  | .loop b c => return "WHILE " ++ (← b.render) ++ " DO " ++ (← c.render) ++ " END"
  | .foreign k => throw (.notNode (.foreign k))

end Node

end ImpSSA
