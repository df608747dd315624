import Mathlib.Algebra.Order.BigOperators.Group.List
import Mathlib.Data.Prod.Lex
import ImpSSA.Node.WellSorted
import ImpSSA.Proofs.Node.Parts
import ImpSSA.Proofs.Search.Halving

/-!
# Reductions of trees

`Simplifies n m` lists the ways in which a node gives way to something simpler, and `Reduces n m` says
that this happens at one place anywhere in a tree. A reduction keeps the category, brings in no name and
no literal but zero and smaller ones. It need not be smaller than the tree; but if the sizes are equal
then variables disappear, and if these are as many then the literals become smaller
(`Reduces.rank_lt`). So reductions come to an end (`WellSorted.acc_reduces`).
-/

namespace ImpSSA.Node
open Search

/-! ## Places in a tree -/

/-- A node that lacks one of its children. -/
inductive Hole where
  | arithLeft (op : ArithOp) (r : Node)
  | arithRight (op : ArithOp) (l : Node)
  | cmpLeft (op : CmpOp) (r : Node)
  | cmpRight (op : CmpOp) (l : Node)
  | not
  | andLeft (r : Node)
  | andRight (l : Node)
  | assign (x : String)
  | seqFirst (d : Node)
  | seqSecond (c : Node)
  | condTest (c d : Node)
  | condThen (b d : Node)
  | condElse (b c : Node)
  | loopTest (c : Node)
  | loopBody (b : Node)

/-- The node with a child put in. -/
def Hole.fill : Hole → Node → Node
  | .arithLeft op r, c => .arith op c r
  | .arithRight op l, c => .arith op l c
  | .cmpLeft op r, c => .cmp op c r
  | .cmpRight op l, c => .cmp op l c
  | .not, c => .not c
  | .andLeft r, c => .and c r
  | .andRight l, c => .and l c
  | .assign x, c => .assign x c
  | .seqFirst d, c => .seq c d
  | .seqSecond d, c => .seq d c
  | .condTest d e, c => .cond c d e
  | .condThen b e, c => .cond b c e
  | .condElse b d, c => .cond b d c
  | .loopTest d, c => .loop c d
  | .loopBody b, c => .loop b c

/-- The children of a node, each with the node that lacks it. -/
def holes : Node → List (Hole × Node)
  | .arith op l r => [(.arithLeft op r, l), (.arithRight op l, r)]
  | .cmp op l r => [(.cmpLeft op r, l), (.cmpRight op l, r)]
  | .not b => [(.not, b)]
  | .and l r => [(.andLeft r, l), (.andRight l, r)]
  | .assign x e => [(.assign x, e)]
  | .seq c d => [(.seqFirst d, c), (.seqSecond c, d)]
  | .cond b c d => [(.condTest c d, b), (.condThen b d, c), (.condElse b c, d)]
  | .loop b c => [(.loopTest c, b), (.loopBody b, c)]
  | .num _ | .var _ | .bool _ | .skip | .foreign _ => []

/-- The children of a tree are what is in its holes. -/
lemma children_eq (n : Node) : n.children = n.holes.map (·.2) := by
  cases n <;> rfl

/-- A hole of a tree gives the tree when it is filled with what was there. -/
lemma mem_holes {n c : Node} {H : Hole} : (H, c) ∈ n.holes ↔ n = H.fill c := by
  have filled : ∀ p ∈ n.holes, n = p.1.fill p.2 := by
    cases n <;> simp [holes, Hole.fill]
  constructor
  · exact filled (H, c)
  · rintro rfl
    cases H <;> simp [Hole.fill, holes]

/-- The children of a node are what fills it up. -/
lemma mem_children_iff {n c : Node} : c ∈ n.children ↔ ∃ H : Hole, n = H.fill c := by
  rw [children_eq, List.mem_map]
  constructor
  · rintro ⟨⟨H, d⟩, mem, rfl⟩
    exact ⟨H, mem_holes.1 mem⟩
  · rintro ⟨H, eq⟩
    exact ⟨(H, c), mem_holes.2 eq, rfl⟩

/-- What fills a hole is a child. -/
lemma Hole.mem_children (H : Hole) (c : Node) : c ∈ (H.fill c).children := mem_children_iff.2 ⟨H, rfl⟩

/-- A tree grows by as much as what is in one of its holes. -/
lemma size_fill (H : Hole) (c m : Node) : (H.fill m).size + c.size = (H.fill c).size + m.size := by
  cases H <;> simp only [Hole.fill, size] <;> omega

/-- A tree reads as many more names as what is in one of its holes. -/
lemma length_reads_fill (H : Hole) (c m : Node) :
    (H.fill m).reads.length + c.reads.length = (H.fill c).reads.length + m.reads.length := by
  cases H <;> simp only [Hole.fill, reads, List.length_append] <;> omega

/-- What is named in a filled node is named in what fills it or in the rest. -/
lemma mem_names_fill {H : Hole} {m : Node} {x : String} (mem : x ∈ (H.fill m).names) :
    x ∈ m.names ∨ ∀ c, x ∈ (H.fill c).names := by
  cases H <;> simp only [Hole.fill, names, List.mem_append, List.mem_cons] at mem ⊢ <;> tauto

/-- What is written in a filled node is written in what fills it or in the rest. -/
lemma mem_literals_fill {H : Hole} {m : Node} {v : Int} (mem : v ∈ (H.fill m).literals) :
    v ∈ m.literals ∨ ∀ c, v ∈ (H.fill c).literals := by
  cases H <;> simp only [Hole.fill, literals, List.mem_append] at mem ⊢ <;> tauto

/-- A node that is filled up is well sorted for what fills it as it asks for. -/
lemma WellSorted.fill_inv {H : Hole} {k c} (ws : WellSorted k (H.fill c)) :
    ∃ k', WellSorted k' c ∧ ∀ {m}, WellSorted k' m → WellSorted k (H.fill m) := by
  cases H with
  | arithLeft => cases ws with | arith l r => exact ⟨_, l, fun hole => .arith hole r⟩
  | arithRight => cases ws with | arith l r => exact ⟨_, r, fun hole => .arith l hole⟩
  | cmpLeft => cases ws with | cmp l r => exact ⟨_, l, fun hole => .cmp hole r⟩
  | cmpRight => cases ws with | cmp l r => exact ⟨_, r, fun hole => .cmp l hole⟩
  | not => cases ws with | not b => exact ⟨_, b, fun hole => .not hole⟩
  | andLeft => cases ws with | and l r => exact ⟨_, l, fun hole => .and hole r⟩
  | andRight => cases ws with | and l r => exact ⟨_, r, fun hole => .and l hole⟩
  | assign => cases ws with | assign e => exact ⟨_, e, fun hole => .assign hole⟩
  | seqFirst => cases ws with | seq c d => exact ⟨_, c, fun hole => .seq hole d⟩
  | seqSecond => cases ws with | seq c d => exact ⟨_, d, fun hole => .seq c hole⟩
  | condTest => cases ws with | cond b c d => exact ⟨_, b, fun hole => .cond hole c d⟩
  | condThen => cases ws with | cond b c d => exact ⟨_, c, fun hole => .cond b hole d⟩
  | condElse => cases ws with | cond b c d => exact ⟨_, d, fun hole => .cond b c hole⟩
  | loopTest => cases ws with | loop b c => exact ⟨_, b, fun hole => .loop hole c⟩
  | loopBody => cases ws with | loop b c => exact ⟨_, c, fun hole => .loop b hole⟩

/-! ## Reductions -/

/-- A node gives way to something simpler: to a child of its category, to the simplest trees of its
category, or to its half if it is a literal. -/
inductive Simplifies : Node → Node → Prop where
  | child {n c} :
    c ∈ n.children →
    c.category = n.category →
    Simplifies n c
  | zero {n} :
    n.category = .arith →
    n ≠ .num 0 →
    Simplifies n (.num 0)
  | half {v h} :
    1 < v.natAbs →
    halve v = some h →
    Simplifies (.num v) (.num h)
  | truth {n b} :
    n.category = .bool →
    (∀ b', n ≠ .bool b') →
    Simplifies n (.bool b)
  | skip {n} :
    n.category = .command →
    n ≠ .skip →
    Simplifies n .skip

/-- One node of a tree gives way to something simpler. -/
inductive Reduces : Node → Node → Prop where
  | here {n m} :
    Simplifies n m →
    Reduces n m
  | inside {H : Hole} {c m} :
    Reduces c m →
    Reduces (H.fill c) (H.fill m)

/-- A simplification stays of the kind. -/
lemma WellSorted.simplifies {n m k} (ws : WellSorted k n) (step : Simplifies n m) : WellSorted k m := by
  cases step with
  | child mem same =>
    obtain ⟨H, rfl⟩ := mem_children_iff.1 mem
    obtain ⟨k', child, _⟩ := ws.fill_inv
    have : k' = k := child.category_eq.symm.trans (same.trans ws.category_eq)
    exact this ▸ child
  | zero cat =>
    rw [← ws.category_eq, cat]
    exact .num 0
  | half =>
    cases ws
    exact .num _
  | truth cat =>
    rw [← ws.category_eq, cat]
    exact .bool _
  | skip cat =>
    rw [← ws.category_eq, cat]
    exact .skip

/-- A reduction is well sorted as the tree is. -/
lemma WellSorted.reduces {n m k} (ws : WellSorted k n) (red : Reduces n m) : WellSorted k m := by
  induction red generalizing k with
  | here step => exact ws.simplifies step
  | inside _ ih =>
    obtain ⟨k', child, fill⟩ := ws.fill_inv
    exact fill (ih child)

/-- A reduction is no larger than the tree. -/
lemma Reduces.size_le {n m} (red : Reduces n m) : m.size ≤ n.size := by
  induction red with
  | here step =>
    cases step with
    | child mem => exact (size_child_lt mem).le
    | _ => exact size_pos _
  | @inside H c m _ ih =>
    have := size_fill H c m
    omega

/-- A reduction brings in no name. -/
lemma Reduces.names_subset {n m} (red : Reduces n m) : m.names ⊆ n.names := by
  induction red with
  | here step =>
    cases step with
    | child mem => exact (names_of_child mem).1
    | _ => exact List.nil_subset _
  | @inside H c m _ ih =>
    intro x mem
    rcases mem_names_fill mem with within | rest
    · exact (names_of_child (H.mem_children c)).1 (ih within)
    · exact rest c

/-- The literals of a child are literals of the tree. -/
lemma literals_of_child {n d : Node} (mem : d ∈ n.children) : d.literals ⊆ n.literals := by
  obtain ⟨H, rfl⟩ := mem_children_iff.1 mem
  cases H <;> simp [Hole.fill, literals]

/-- A literal of a reduction is zero, or one of the tree is as large. -/
lemma Reduces.literals_le {n m} (red : Reduces n m) {v : Int} (mem : v ∈ m.literals) :
    v = 0 ∨ ∃ w ∈ n.literals, v.natAbs ≤ w.natAbs := by
  induction red with
  | here step =>
    cases step with
    | child child => exact .inr ⟨v, literals_of_child child mem, Nat.le_refl _⟩
    | zero => exact .inl (List.mem_singleton.1 mem)
    | @half w h large half =>
      obtain rfl := List.mem_singleton.1 mem
      have ne : w ≠ 0 := Int.natAbs_ne_zero.1 (Nat.ne_zero_of_lt large)
      exact .inr ⟨w, List.mem_singleton_self w, (natAbs_halve_lt half ne).le⟩
    | truth | skip => cases mem
  | @inside H c m _ ih =>
    rcases mem_literals_fill mem with within | rest
    · refine (ih within).imp id ?_
      rintro ⟨w, mem, le⟩
      exact ⟨w, literals_of_child (H.mem_children c) mem, le⟩
    · exact .inr ⟨v, rest c, Nat.le_refl _⟩

/-! ## The order in which reductions descend -/

/-- The sum of the absolute values of the literals. -/
def bulk (n : Node) : Nat := (n.literals.map Int.natAbs).sum

/-- The literals of a tree grow by as much as those in one of its holes. -/
lemma bulk_fill (H : Hole) (c m : Node) : (H.fill m).bulk + c.bulk = (H.fill c).bulk + m.bulk := by
  cases H <;> simp only [Hole.fill, bulk, literals, List.map_append, List.sum_append] <;> omega

/-- The size, then the number of variables, then the literals. -/
def rank (n : Node) : Nat ×ₗ Nat ×ₗ Nat := toLex (n.size, toLex (n.reads.length, n.bulk))

/-- Trees are compared by size, then by reads, and then by literals. -/
lemma rank_lt_iff {n m : Node} : m.rank < n.rank ↔
    m.size < n.size ∨ m.size = n.size ∧
      (m.reads.length < n.reads.length ∨ m.reads.length = n.reads.length ∧ m.bulk < n.bulk) := by
  simp only [rank, Prod.Lex.toLex_lt_toLex]

/-- A tree descends where what is in one of its holes does. -/
lemma rank_fill_lt (H : Hole) {c m : Node} (lt : m.rank < c.rank) :
    (H.fill m).rank < (H.fill c).rank := by
  have size := size_fill H c m
  have reads := length_reads_fill H c m
  have bulk := bulk_fill H c m
  rw [rank_lt_iff] at lt ⊢
  omega

/-- A tree with children is no leaf. -/
lemma one_lt_size {n c : Node} (mem : c ∈ n.children) : 1 < n.size :=
  Nat.lt_of_le_of_lt (size_pos c) (size_child_lt mem)

/-- Every simplification descends. -/
lemma Simplifies.rank_lt {n m k} (step : Simplifies n m) (ws : WellSorted k n) :
    m.rank < n.rank := by
  rw [rank_lt_iff]
  cases step with
  | child mem => exact .inl (size_child_lt mem)
  | zero cat ne =>
    cases ws with
    | num v =>
      have pos : 0 < v.natAbs := Int.natAbs_pos.2 fun eq => ne (eq ▸ rfl)
      exact .inr ⟨rfl, .inr ⟨rfl, pos⟩⟩
    | var x => exact .inr ⟨rfl, .inl Nat.one_pos⟩
    | arith => exact .inl (one_lt_size List.mem_cons_self)
    | _ => cases cat
  | @half v h large half =>
    have ne : v ≠ 0 := Int.natAbs_ne_zero.1 (Nat.ne_zero_of_lt large)
    exact .inr ⟨rfl, .inr ⟨rfl, natAbs_halve_lt half ne⟩⟩
  | truth cat ne =>
    cases ws with
    | bool b => exact absurd rfl (ne b)
    | cmp | not | and => exact .inl (one_lt_size List.mem_cons_self)
    | _ => cases cat
  | skip cat ne =>
    cases ws with
    | skip => exact absurd rfl ne
    | assign | seq | cond | loop => exact .inl (one_lt_size List.mem_cons_self)
    | _ => cases cat

/-- A reduction ranks below the tree. -/
lemma Reduces.rank_lt {n m k} (red : Reduces n m) (ws : WellSorted k n) : m.rank < n.rank := by
  induction red generalizing k with
  | here step => exact step.rank_lt ws
  | @inside H c m _ ih =>
    obtain ⟨k', child, _⟩ := ws.fill_inv
    exact rank_fill_lt H (ih child)

/-- Reductions of a well-sorted tree, and reductions of these, come to an end. -/
lemma WellSorted.acc_reduces {n k} (ws : WellSorted k n) : Acc (fun m n => Reduces n m) n := by
  induction n using (InvImage.wf rank wellFounded_lt).induction with
  | _ n ih => exact .intro n fun m red => ih m (red.rank_lt ws) (ws.reduces red)

end ImpSSA.Node
