import ImpSSA.Node.Basic

/-!
# Well-sorted trees

`WellSorted k n` says that `n` belongs to the category `k` and is built from IMP's own constructors,
each with children of the categories it takes.
-/

namespace ImpSSA.Node

/-- Trees in which every node stands where its category belongs. -/
inductive WellSorted : Category → Node → Prop where
  | num (n : Int) : WellSorted .arith (.num n)
  | var (x : String) : WellSorted .arith (.var x)
  | arith {op : ArithOp} {l r : Node} :
      WellSorted .arith l → WellSorted .arith r → WellSorted .arith (.arith op l r)
  | bool (b : Bool) : WellSorted .bool (.bool b)
  | cmp {op : CmpOp} {l r : Node} :
      WellSorted .arith l → WellSorted .arith r → WellSorted .bool (.cmp op l r)
  | not {b : Node} : WellSorted .bool b → WellSorted .bool (.not b)
  | and {l r : Node} : WellSorted .bool l → WellSorted .bool r → WellSorted .bool (.and l r)
  | skip : WellSorted .command .skip
  | assign {x : String} {e : Node} : WellSorted .arith e → WellSorted .command (.assign x e)
  | seq {c d : Node} : WellSorted .command c → WellSorted .command d → WellSorted .command (.seq c d)
  | cond {b c d : Node} :
      WellSorted .bool b → WellSorted .command c → WellSorted .command d →
      WellSorted .command (.cond b c d)
  | loop {b c : Node} : WellSorted .bool b → WellSorted .command c → WellSorted .command (.loop b c)

/-- A well-sorted tree is of the category it is well-sorted at. -/
theorem WellSorted.category_eq {k : Category} {n : Node} (h : WellSorted k n) : n.category = k := by
  cases h <;> rfl

end ImpSSA.Node
