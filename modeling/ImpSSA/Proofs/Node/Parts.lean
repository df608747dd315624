import ImpSSA.Proofs.Table

/-!
# The parts of a node

`Within m n` says that the tree `m` occurs in `n`. `names` collects the names of a node as they are
written, by recursion on the node; the stack of `Node.collect` finds the same names (`mem_collect`). They
are told apart by what is done with them (`assigned`, `reads`), and put in the order in which code is
generated for them (`lookups`). `literals` collects the numbers that are written.
-/

namespace ImpSSA.Node

/-- A tree occurs in another one. -/
inductive Within : Node → Node → Prop where
  | self {n} :
    Within n n
  | child {m d n} :
    d ∈ n.children →
    Within m d →
    Within m n

/-- The names read or assigned anywhere in a node, in order of occurrence. -/
def names : Node → List String
  | .var x => [x]
  | .arith _ l r | .cmp _ l r | .and l r | .seq l r | .loop l r => l.names ++ r.names
  | .not b => b.names
  | .assign x e => x :: e.names
  | .cond b c d => b.names ++ c.names ++ d.names
  | .num _ | .bool _ | .skip | .foreign _ => []

/-- The names assigned anywhere in a node, in order of occurrence. -/
def assigned : Node → List String
  | .arith _ l r | .cmp _ l r | .and l r | .seq l r | .loop l r => l.assigned ++ r.assigned
  | .not b => b.assigned
  | .assign x e => x :: e.assigned
  | .cond b c d => b.assigned ++ c.assigned ++ d.assigned
  | .num _ | .var _ | .bool _ | .skip | .foreign _ => []

/-- The names read anywhere in a node, in order of occurrence. -/
def reads : Node → List String
  | .var x => [x]
  | .arith _ l r | .cmp _ l r | .and l r | .seq l r | .loop l r => l.reads ++ r.reads
  | .not b => b.reads
  | .assign _ e => e.reads
  | .cond b c d => b.reads ++ c.reads ++ d.reads
  | .num _ | .bool _ | .skip | .foreign _ => []

/-- The names of a node in the order in which code for it needs their cells: operands from left to
right, a condition before what it decides, and the value of an assignment before the name. -/
def lookups : Node → List String
  | .var x => [x]
  | .arith _ l r | .cmp _ l r | .and l r | .seq l r | .loop l r => l.lookups ++ r.lookups
  | .not b => b.lookups
  | .assign x e => e.lookups ++ [x]
  | .cond b c d => b.lookups ++ c.lookups ++ d.lookups
  | .num _ | .bool _ | .skip | .foreign _ => []

/-- The literals of a node, from left to right. -/
def literals : Node → List Int
  | .num v => [v]
  | .arith _ l r | .cmp _ l r | .and l r | .seq l r | .loop l r => l.literals ++ r.literals
  | .not b => b.literals
  | .assign _ e => e.literals
  | .cond b c d => b.literals ++ c.literals ++ d.literals
  | .var _ | .bool _ | .skip | .foreign _ => []

/-- No tree is empty. -/
lemma size_pos (n : Node) : 0 < n.size := by
  cases n <;> simp only [size] <;> omega

/-- Children are smaller than their node. -/
lemma size_child_lt {n d : Node} (mem : d ∈ n.children) : d.size < n.size := by
  cases n with
  | num | var | bool | skip | foreign => cases mem
  | not | assign =>
    obtain rfl := List.mem_singleton.1 mem
    simp [size]
  | arith | cmp | and | seq | loop =>
    obtain rfl | rfl := List.mem_pair.1 mem <;> simp only [size] <;> omega
  | cond =>
    simp only [children, List.mem_cons, List.not_mem_nil, or_false] at mem
    rcases mem with rfl | rfl | rfl <;> simp only [size] <;> omega

/-- A name of a node is its own or that of a part. -/
lemma mem_names_iff {n : Node} {x : String} :
    x ∈ n.names ↔ n.name? = some x ∨ ∃ d ∈ n.children, x ∈ d.names := by
  cases n <;> simp [names, name?, children, eq_comm]

/-- The stack leaves out no name of its nodes and adds no other. -/
lemma mem_collect {found : List String} {stack : List Node} {x : String} :
    x ∈ collect found stack ↔ x ∈ found ∨ ∃ n ∈ stack, x ∈ n.names := by
  fun_induction collect found stack with
  | case1 found => simp
  | case2 found n rest ih =>
    simp only [ih, List.mem_append, Option.mem_toList, List.mem_reverse, List.mem_cons, or_and_right,
      exists_or, exists_eq_left, mem_names_iff (n := n)]
    rw [or_assoc, or_assoc, or_left_comm]

/-- The variables are the names, sorted. -/
lemma vars_eq_sortNames (n : Node) : n.vars = sortNames n.names :=
  sortNames_congr fun x => by simp [mem_collect]

/-- The variables of a node are the names read or assigned in it. -/
lemma mem_vars {n : Node} {x : String} : x ∈ n.vars ↔ x ∈ n.names := by
  rw [vars_eq_sortNames, mem_sortNames]

/-- Every name is looked up, and no other. -/
lemma mem_lookups {n : Node} {x : String} : x ∈ n.lookups ↔ x ∈ n.names := by
  induction n with
  | assign y e ih =>
    simp only [lookups, names, List.mem_append, List.mem_cons, List.not_mem_nil, or_false, ih]
    exact or_comm
  | arith _ _ _ ihl ihr | cmp _ _ _ ihl ihr | and _ _ ihl ihr | seq _ _ ihl ihr | loop _ _ ihl ihr =>
    simp only [lookups, names, List.mem_append, ihl, ihr]
  | not b ih => exact ih
  | cond b c d ihb ihc ihd => simp only [lookups, names, List.mem_append, ihb, ihc, ihd]
  | _ => rfl

/-- The names of a child are names of the node, and what is done with them is done in the node. -/
lemma names_of_child {n d : Node} (mem : d ∈ n.children) :
    d.names ⊆ n.names ∧ d.assigned ⊆ n.assigned ∧ d.reads ⊆ n.reads := by
  cases n with
  | num | var | bool | skip | foreign => cases mem
  | not | assign =>
    obtain rfl := List.mem_singleton.1 mem
    simp [names, assigned, reads]
  | arith | cmp | and | seq | loop =>
    obtain rfl | rfl := List.mem_pair.1 mem <;> simp [names, assigned, reads]
  | cond =>
    simp only [children, List.mem_cons, List.not_mem_nil, or_false] at mem
    rcases mem with rfl | rfl | rfl <;> simp [names, assigned, reads]

end ImpSSA.Node
