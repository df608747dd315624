import ImpSSA.Node.Basic
import ImpSSA.Search.Halve

/-!
# Smaller trees

`Node.shrink` lists the trees one reduction away from a tree: its children of the same category, the
simplest trees of its category, smaller literals, and the same reductions inside a child. None is
larger than the tree; the smallest come first.
-/

namespace ImpSSA.Search

/-- A literal is too large to be halved. -/
inductive ShrinkError where
  | overflow
  deriving DecidableEq, Repr

/-- What is reported of an error. -/
def ShrinkError.message : ShrinkError → String
  | .overflow => "integer division result too large for a float"

/-- The reductions of a literal. -/
def shrinkLiteral (n : Int) : Except ShrinkError (List Node) :=
  if n = 0 then pure []
  else if n.natAbs ≤ 1 then pure [.num 0]
  else
    match halve n with
    | some m => pure [.num 0, .num m]
    | none => throw .overflow

/-- The simplest trees of the category of a node that is no literal. -/
def simplest : Node → List Node
  | .bool _ | .skip => []
  | n =>
    match n.category with
    | .arith => [.num 0]
    | .bool => [.bool true, .bool false]
    | .command => [.skip]

/-- The reductions of a node that is no literal to a child or to a simplest tree. -/
def reductions (n : Node) : List Node :=
  n.children.filter (fun c => c.category = n.category) ++ simplest n

/-- Candidates without `n` and repetitions, the smallest first and otherwise in order. -/
def arrange (n : Node) (candidates : List Node) : List Node :=
  (candidates.filter (· ≠ n)).eraseDups.mergeSort fun a b => a.size ≤ b.size

end ImpSSA.Search

namespace ImpSSA

open Search

/-- The trees one reduction away. -/
def Node.shrink (n : Node) : Except ShrinkError (List Node) := do
  match n with
  | .num v => return arrange n (← shrinkLiteral v)
  | .var _ | .bool _ | .skip | .foreign _ => return arrange n (reductions n)
  | .arith op l r =>
    let ls := (← l.shrink).map fun l' => Node.arith op l' r
    let rs := (← r.shrink).map fun r' => Node.arith op l r'
    return arrange n (reductions n ++ ls ++ rs)
  | .cmp op l r =>
    let ls := (← l.shrink).map fun l' => Node.cmp op l' r
    let rs := (← r.shrink).map fun r' => Node.cmp op l r'
    return arrange n (reductions n ++ ls ++ rs)
  | .not b =>
    let bs := (← b.shrink).map Node.not
    return arrange n (reductions n ++ bs)
  | .and l r =>
    let ls := (← l.shrink).map fun l' => Node.and l' r
    let rs := (← r.shrink).map fun r' => Node.and l r'
    return arrange n (reductions n ++ ls ++ rs)
  | .assign x e =>
    let es := (← e.shrink).map (Node.assign x)
    return arrange n (reductions n ++ es)
  | .seq c d =>
    let cs := (← c.shrink).map fun c' => Node.seq c' d
    let ds := (← d.shrink).map fun d' => Node.seq c d'
    return arrange n (reductions n ++ cs ++ ds)
  | .cond b c d =>
    let bs := (← b.shrink).map fun b' => Node.cond b' c d
    let cs := (← c.shrink).map fun c' => Node.cond b c' d
    let ds := (← d.shrink).map fun d' => Node.cond b c d'
    return arrange n (reductions n ++ bs ++ cs ++ ds)
  | .loop b c =>
    let bs := (← b.shrink).map fun b' => Node.loop b' c
    let cs := (← c.shrink).map fun c' => Node.loop b c'
    return arrange n (reductions n ++ bs ++ cs)

end ImpSSA
