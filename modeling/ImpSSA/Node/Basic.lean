import ImpSSA.Table

/-!
# The abstract syntax of IMP

One type `Node` holds arithmetic expressions, boolean expressions and commands, so a tree may put a
node of any category in any place; `ImpSSA.Node.WellSorted` singles out the sensible trees. A
`foreign` node is a member of its category that no operation knows.
-/

namespace ImpSSA

/-- What a node stands for. -/
inductive Category where
  | arith
  | bool
  | command
  deriving DecidableEq, Repr

/-- Operators on integers. -/
inductive ArithOp where
  | plus
  | minus
  | times
  deriving DecidableEq, Repr

/-- Comparisons of integers. -/
inductive CmpOp where
  | eq
  | le
  deriving DecidableEq, Repr

/-- The integer an operator computes. -/
def ArithOp.apply : ArithOp → Int → Int → Int
  | .plus, m, n => m + n
  | .minus, m, n => m - n
  | .times, m, n => m * n

/-- The truth value a comparison computes. -/
def CmpOp.apply : CmpOp → Int → Int → Bool
  | .eq, m, n => decide (m = n)
  | .le, m, n => decide (m ≤ n)

/-- Expressions and commands. -/
inductive Node where
  | num (n : Int)
  | var (x : String)
  | arith (op : ArithOp) (l r : Node)
  | bool (b : Bool)
  | cmp (op : CmpOp) (l r : Node)
  | not (b : Node)
  | and (l r : Node)
  | skip
  | assign (x : String) (e : Node)
  | seq (c d : Node)
  | cond (b c d : Node)
  | loop (b c : Node)
  | foreign (k : Category)
  deriving DecidableEq, Repr

namespace Node

/-- The category of a node, whatever its children are. -/
def category : Node → Category
  | .num _ | .var _ | .arith .. => .arith
  | .bool _ | .cmp .. | .not _ | .and .. => .bool
  | .skip | .assign .. | .seq .. | .cond .. | .loop .. => .command
  | .foreign k => k

/-- The immediate parts of a node, from left to right. -/
def children : Node → List Node
  | .arith _ l r | .cmp _ l r | .and l r | .seq l r | .loop l r => [l, r]
  | .not b => [b]
  | .assign _ e => [e]
  | .cond b c d => [b, c, d]
  | .num _ | .var _ | .bool _ | .skip | .foreign _ => []

/-- The number of nodes. -/
def size : Node → Nat
  | .arith _ l r | .cmp _ l r | .and l r | .seq l r | .loop l r => 1 + l.size + r.size
  | .not b => 1 + b.size
  | .assign _ e => 1 + e.size
  | .cond b c d => 1 + b.size + c.size + d.size
  | .num _ | .var _ | .bool _ | .skip | .foreign _ => 1

/-- The number of nodes of several trees. -/
def total : List Node → Nat
  | [] => 0
  | n :: ns => n.size + total ns

/-- Trees side by side have their nodes together. -/
theorem total_append (ms ns : List Node) : total (ms ++ ns) = total ms + total ns := by
  induction ms with
  | nil => simp [total]
  | cons m ms ih => simp [total, ih, Nat.add_assoc]

/-- The order of trees does not matter for the number of their nodes. -/
theorem total_reverse (ns : List Node) : total ns.reverse = total ns := by
  induction ns with
  | nil => rfl
  | cons n ns ih => simp [total, total_append, ih, Nat.add_comm]

/-- A node is counted besides those of its parts. -/
theorem size_eq_total_children (n : Node) : n.size = 1 + total n.children := by
  cases n <;> simp [size, children, total, Nat.add_assoc]

/-- The name that a node reads or assigns itself. -/
def name? : Node → Option String
  | .var x | .assign x _ => some x
  | .num _ | .arith .. | .bool _ | .cmp .. | .not _ | .and .. | .skip | .seq .. | .cond .. | .loop ..
  | .foreign _ => none

/-- The names of the nodes on a stack and of all their parts, besides those that are `found`. The top of
the stack is taken off, and its parts take its place with the last on top. -/
def collect (found : List String) (stack : List Node) : List String :=
  match stack with
  | [] => found
  | n :: rest => collect (n.name?.toList ++ found) (n.children.reverse ++ rest)
termination_by total stack
decreasing_by simp [total, total_append, total_reverse, size_eq_total_children]

/-- Distinct names in ascending order of their code points. -/
def sortNames (xs : List String) : List String := (Table.ofList (xs.map (·, ()))).keys

/-- The variables read or assigned anywhere in a node, each once and in ascending order. -/
def vars (n : Node) : List String := sortNames (collect [] [n])

/-- Commands one after the other, nested to the right. -/
def sequence : List Node → Node
  | [] => .skip
  | [c] => c
  | c :: cs => .seq c (sequence cs)

end Node

/-- The values of variables. -/
abbrev Store := Table String Int

/-- The value of a variable; one that was never assigned is zero. -/
def Store.value (σ : Store) (x : String) : Int := (σ.get? x).getD 0

/-- A command preceded by one assignment for each entry of a store, in name order. -/
def Node.seeded (σ : Store) (c : Node) : Node :=
  sequence (σ.entries.map (fun (x, n) => .assign x (.num n)) ++ [c])

end ImpSSA
