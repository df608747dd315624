import ImpSSA.Search.Shrink
import ImpSSA.Proofs.Control
import ImpSSA.Proofs.Lists
import ImpSSA.Proofs.Search.Reduction

/-!
# The list of reductions

Shrinking goes through the children of a node in one way for all nodes (`shrink_eq`): what the node itself
gives way to comes first, then the node with each child shrunk. So the list holds exactly the reductions
(`mem_shrink`), and there is one unless some literal has no half (`exists_shrink_iff`).
-/

namespace ImpSSA

namespace Search

/-- Arranging leaves out the tree itself and nothing else. -/
lemma mem_arrange {n m : Node} {cs : List Node} : m ∈ arrange n cs ↔ m ∈ cs ∧ m ≠ n := by
  rw [arrange, List.mem_mergeSort, List.mem_eraseDups, List.mem_filter, decide_eq_true_iff]

/-- Arranged candidates do not repeat. -/
lemma nodup_arrange (n : Node) (cs : List Node) : (arrange n cs).Nodup :=
  (List.mergeSort_perm _ _).nodup_iff.2 (nodup_eraseDups _)

/-- Arranged candidates are ordered by size. -/
lemma pairwise_arrange (n : Node) (cs : List Node) :
    (arrange n cs).Pairwise fun a b => a.size ≤ b.size := by
  have sorted : (arrange n cs).Pairwise fun a b => decide (a.size ≤ b.size) = true := by
    apply List.pairwise_mergeSort
    · intro a b c le le'
      exact decide_eq_true ((of_decide_eq_true le).trans (of_decide_eq_true le'))
    · intro a b
      rw [Bool.or_eq_true, decide_eq_true_iff, decide_eq_true_iff]
      exact Nat.le_total _ _
  exact sorted.imp of_decide_eq_true

end Search

namespace Node
open Search

/-! ## One way for all nodes -/

/-- What a node itself gives way to. -/
def simpler : Node → Except ShrinkError (List Node)
  | .num v => shrinkLiteral v
  | n => pure (reductions n)

/-- The candidates are what the node itself gives way to, and the node with each child shrunk. -/
lemma shrink_eq (n : Node) :
    n.shrink = (do
      let own ← n.simpler
      let inner ← n.holes.mapM fun p => do
        let cs ← p.2.shrink
        pure (cs.map p.1.fill)
      pure (arrange n (own ++ inner.flatten))) := by
  cases n with
  | num | var | bool | skip | foreign => simp [shrink, simpler, holes]
  | _ =>
    simp only [shrink, simpler, holes, List.mapM_cons, List.mapM_nil, bind_pure_comp, map_pure, map_bind,
      Functor.map_map, bind_map_left, pure_bind, List.flatten_cons, List.flatten_nil, List.append_nil,
      List.append_assoc]
    rfl

/-! ## What a node itself gives way to -/

/-- The simplest tree of each category. -/
lemma mem_simplest {n m : Node} : m ∈ simplest n ↔
    n.category = .arith ∧ m = .num 0 ∨
    n.category = .bool ∧ (∀ b, n ≠ .bool b) ∧ (∃ b, m = .bool b) ∨
    n.category = .command ∧ n ≠ .skip ∧ m = .skip := by
  cases n with
  | foreign k => cases k <;> simp [simplest, category, or_comm]
  | _ => simp [simplest, category, or_comm]

/-- The candidates of a tree other than a literal are its simplifications. -/
lemma mem_reductions {n m : Node} (ne : ∀ v, n ≠ .num v) : m ∈ reductions n ↔ Simplifies n m := by
  rw [reductions, List.mem_append, List.mem_filter, decide_eq_true_iff, mem_simplest]
  constructor
  · rintro (⟨mem, same⟩ | ⟨cat, rfl⟩ | ⟨cat, other, b, rfl⟩ | ⟨cat, other, rfl⟩)
    · exact .child mem same
    · exact .zero cat (ne 0)
    · exact .truth cat other
    · exact .skip cat other
  · intro step
    cases step with
    | child mem same => exact .inl ⟨mem, same⟩
    | zero cat => exact .inr (.inl ⟨cat, rfl⟩)
    | half => exact absurd rfl (ne _)
    | truth cat other => exact .inr (.inr (.inl ⟨cat, other, _, rfl⟩))
    | skip cat other => exact .inr (.inr (.inr ⟨cat, other, rfl⟩))

/-- A literal is simplified to zero, or to its half if it is large. -/
lemma simplifies_num_iff {v : Int} {m : Node} : Simplifies (.num v) m ↔
    v ≠ 0 ∧ m = .num 0 ∨ 1 < v.natAbs ∧ ∃ h, halve v = some h ∧ m = .num h := by
  constructor
  · intro step
    cases step with
    | child mem => cases mem
    | zero _ ne => exact .inl ⟨fun eq => ne (eq ▸ rfl), rfl⟩
    | half large half => exact .inr ⟨large, _, half, rfl⟩
    | truth cat | skip cat => cases cat
  · rintro (⟨ne, rfl⟩ | ⟨large, h, half, rfl⟩)
    · exact .zero rfl fun eq => ne (Node.num.inj eq)
    · exact .half large half

/-- The candidates of a literal are its simplifications. -/
lemma mem_shrinkLiteral {v : Int} {own : List Node} (h : shrinkLiteral v = .ok own) {m : Node} :
    m ∈ own ↔ Simplifies (.num v) m := by
  rw [simplifies_num_iff]
  simp only [shrinkLiteral] at h
  split_ifs at h with zero small
  · cases h
    simp [zero]
  · cases h
    simp [zero, Nat.not_lt.2 small]
  · cases half : halve v with
    | none =>
      rw [half] at h
      cases h
    | some w =>
      rw [half] at h
      cases h
      simp [zero, Nat.lt_of_not_le small]

/-- A literal has candidates if it has a half. -/
lemma exists_shrinkLiteral_iff {v : Int} : (∃ own, shrinkLiteral v = .ok own) ↔ halve v ≠ none := by
  constructor
  · rintro ⟨own, eq⟩ none
    have large := one_lt_natAbs_of_halve none
    rw [shrinkLiteral, if_neg (by omega), if_neg (Nat.not_le.2 large), none] at eq
    cases eq
  · intro half
    obtain ⟨w, half⟩ := Option.ne_none_iff_exists'.1 half
    rw [shrinkLiteral, half]
    split_ifs <;> exact ⟨_, rfl⟩

/-- The candidates of a tree itself are its simplifications. -/
lemma mem_simpler {n : Node} {own : List Node} (h : n.simpler = .ok own) {m : Node} :
    m ∈ own ↔ Simplifies n m := by
  cases n with
  | num v => exact mem_shrinkLiteral h
  | _ =>
    cases h
    exact mem_reductions (by simp)

/-- A node itself gives way unless it is a literal without a half. -/
lemma exists_simpler_iff {n : Node} :
    (∃ own, n.simpler = .ok own) ↔ ∀ v, n = .num v → halve v ≠ none := by
  cases n with
  | num v => exact exists_shrinkLiteral_iff.trans (by simp)
  | _ => exact iff_of_true ⟨_, rfl⟩ (by simp)

/-! ## The whole list -/

/-- What holds of a tree if it holds of its children holds of all trees. -/
lemma induction_on_children {P : Node → Prop} (step : ∀ n, (∀ c ∈ n.children, P c) → P n) (n : Node) :
    P n := by
  induction n using (measure size).wf.induction with
  | _ n ih => exact step n fun c mem => ih c (size_child_lt mem)

/-- What shrinking arranges: what the node itself gives way to, and the node with a child shrunk. -/
lemma shrink_inv {n : Node} {ms : List Node} (h : n.shrink = .ok ms) :
    ∃ cs, ms = arrange n cs ∧ ∀ m, m ∈ cs ↔ Simplifies n m ∨
      ∃ (H : Hole) (c : Node) (ds : List Node) (d : Node),
        n = H.fill c ∧ c.shrink = .ok ds ∧ d ∈ ds ∧ m = H.fill d := by
  rw [shrink_eq] at h
  obtain ⟨own, simpler, h⟩ := bind_eq_ok.1 h
  obtain ⟨inner, within, h⟩ := bind_eq_ok.1 h
  cases h
  refine ⟨own ++ inner.flatten, rfl, fun m => ?_⟩
  rw [List.mem_append, mem_simpler simpler, List.mem_flatten]
  apply or_congr_right
  constructor
  · rintro ⟨l, mem, filled⟩
    obtain ⟨⟨H, c⟩, hole, eq⟩ := (mem_of_mapM_eq_ok within).1 mem
    obtain ⟨ds, shrunk, eq⟩ := bind_eq_ok.1 eq
    cases eq
    obtain ⟨d, mem, rfl⟩ := List.mem_map.1 filled
    exact ⟨H, c, ds, d, mem_holes.1 hole, shrunk, mem, rfl⟩
  · rintro ⟨H, c, ds, d, eq, shrunk, mem, rfl⟩
    have hole := mem_holes.2 eq
    refine ⟨ds.map H.fill, (mem_of_mapM_eq_ok within).2 ⟨(H, c), hole, ?_⟩, List.mem_map_of_mem mem⟩
    exact bind_eq_ok.2 ⟨ds, shrunk, rfl⟩

/-- Shrinking succeeds if it does for the children and the node is no literal without a half. -/
lemma exists_shrink_iff_children {n : Node} : (∃ ms, n.shrink = .ok ms) ↔
    (∀ v, n = .num v → halve v ≠ none) ∧ ∀ c ∈ n.children, ∃ cs, c.shrink = .ok cs := by
  rw [shrink_eq]
  constructor
  · rintro ⟨ms, h⟩
    obtain ⟨own, simpler, h⟩ := bind_eq_ok.1 h
    obtain ⟨inner, within, _⟩ := bind_eq_ok.1 h
    refine ⟨exists_simpler_iff.1 ⟨own, simpler⟩, fun c mem => ?_⟩
    obtain ⟨H, eq⟩ := mem_children_iff.1 mem
    obtain ⟨l, eq⟩ := exists_mapM_eq_ok.1 ⟨inner, within⟩ (H, c) (mem_holes.2 eq)
    obtain ⟨cs, shrunk, _⟩ := bind_eq_ok.1 eq
    exact ⟨cs, shrunk⟩
  · rintro ⟨half, shrunk⟩
    obtain ⟨own, simpler⟩ := exists_simpler_iff.2 half
    obtain ⟨inner, within⟩ : ∃ inner, n.holes.mapM (fun p => do
        let cs ← p.2.shrink
        pure (cs.map p.1.fill)) = .ok inner := by
      apply exists_mapM_eq_ok.2
      rintro ⟨H, c⟩ mem
      obtain ⟨cs, shrunk⟩ := shrunk c (mem_children_iff.2 ⟨H, mem_holes.1 mem⟩)
      exact ⟨_, bind_eq_ok.2 ⟨cs, shrunk, rfl⟩⟩
    exact ⟨_, bind_eq_ok.2 ⟨own, simpler, bind_eq_ok.2 ⟨inner, within, rfl⟩⟩⟩

/-- A literal of a tree is the tree itself, or one of a child. -/
lemma mem_literals_iff {n : Node} {v : Int} :
    v ∈ n.literals ↔ n = .num v ∨ ∃ c ∈ n.children, v ∈ c.literals := by
  cases n <;> simp [literals, children, eq_comm]

/-- A tree can be shrunk unless one of its literals has no half. -/
lemma exists_shrink_iff {n : Node} : (∃ ms, n.shrink = .ok ms) ↔ ∀ v ∈ n.literals, halve v ≠ none := by
  induction n using induction_on_children with
  | step n ih =>
    rw [exists_shrink_iff_children]
    constructor
    · rintro ⟨half, shrunk⟩ v mem
      rcases mem_literals_iff.1 mem with rfl | ⟨c, child, mem⟩
      · exact half v rfl
      · exact (ih c child).1 (shrunk c child) v mem
    · intro half
      refine ⟨fun v eq => half v (mem_literals_iff.2 (.inl eq)), fun c child => ?_⟩
      apply (ih c child).2
      exact fun v mem => half v (mem_literals_iff.2 (.inr ⟨c, child, mem⟩))

/-- The list holds the reductions, but for the tree itself. -/
lemma mem_shrink {n : Node} {ms : List Node} (h : n.shrink = .ok ms) {m : Node} :
    m ∈ ms ↔ Reduces n m ∧ m ≠ n := by
  induction n using induction_on_children generalizing ms m with
  | step n ih =>
    obtain ⟨_, children⟩ := exists_shrink_iff_children.1 ⟨ms, h⟩
    obtain ⟨cs, rfl, mem⟩ := shrink_inv h
    rw [mem_arrange, mem]
    apply and_congr_left
    intro ne
    constructor
    · rintro (step | ⟨H, c, ds, d, rfl, shrunk, mem, rfl⟩)
      · exact .here step
      · exact .inside ((ih c (H.mem_children c) shrunk).1 mem).1
    · intro red
      cases red with
      | here step => exact .inl step
      | @inside H c d red =>
        obtain ⟨ds, shrunk⟩ := children c (H.mem_children c)
        have mem : d ∈ ds := (ih c (H.mem_children c) shrunk).2 ⟨red, fun eq => ne (eq ▸ rfl)⟩
        exact .inr ⟨H, c, ds, d, rfl, shrunk, mem, rfl⟩

/-- The list of a well-sorted tree holds exactly its reductions. -/
lemma WellSorted.mem_shrink {n : Node} {k : Category} (ws : n.WellSorted k) {ms : List Node}
    (h : n.shrink = .ok ms) {m : Node} : m ∈ ms ↔ Reduces n m := by
  rw [Node.mem_shrink h]
  apply and_iff_left_of_imp
  rintro red rfl
  exact lt_irrefl _ (red.rank_lt ws)

/-- Shrinking fails in one way only. -/
lemma shrink_eq_overflow_iff {n : Node} : n.shrink = .error .overflow ↔ ¬ ∃ ms, n.shrink = .ok ms := by
  cases n.shrink with
  | ok ms => simp
  | error e =>
    cases e
    simp

/-- No literal of the tree rounds beyond the double-precision numbers when it is halved. -/
def Halvable (n : Node) : Prop := ∀ v ∈ n.literals, v.natAbs < 2 ^ 1025 - 2 ^ 971

/-- A tree can be shrunk if all of its literals have halves. -/
lemma halvable_iff {n : Node} : n.Halvable ↔ ∃ ms, n.shrink = .ok ms := by
  rw [exists_shrink_iff]
  apply forall₂_congr
  intro v _
  rw [Ne, halve_eq_none, Nat.not_le]

/-- A reduction can be shrunk if the tree can. -/
lemma Halvable.reduces {n m : Node} (half : n.Halvable) (red : Reduces n m) : m.Halvable := by
  intro v mem
  rcases red.literals_le mem with rfl | ⟨w, mem, le⟩
  · decide +kernel
  · exact le.trans_lt (half w mem)

/-- A tree cannot be shrunk exactly if one of its literals rounds beyond the double-precision numbers when
it is halved. Otherwise the list holds each reduction of the tree once, the smallest first. They differ
from the tree, are of its category and no larger, and bring in no variable and no larger literal. All
children of the category are among them, the empty command for any other command, and what the tree
becomes when one of its children is shrunk. -/
theorem shrink_lists_reductions {n : Node} {k : Category} (ws : n.WellSorted k) :
    (n.shrink = .error .overflow ↔ ∃ v ∈ n.literals, 2 ^ 1025 - 2 ^ 971 ≤ v.natAbs) ∧
    (n.Halvable → ∃ ms, n.shrink = .ok ms ∧
      (∀ m, m ∈ ms ↔ Reduces n m) ∧ ms.Nodup ∧ ms.Pairwise (fun a b => a.size ≤ b.size) ∧
      (∀ m ∈ ms, m ≠ n ∧ m.WellSorted k ∧ m.size ≤ n.size ∧ m.vars ⊆ n.vars ∧
        ∀ v ∈ m.literals, v = 0 ∨ ∃ w ∈ n.literals, v.natAbs ≤ w.natAbs) ∧
      (∀ c ∈ n.children, c.category = n.category → c ∈ ms) ∧
      (k = .command → n ≠ .skip → .skip ∈ ms) ∧
      ∀ (H : Hole) (c : Node) (ds : List Node),
        n = H.fill c → c.shrink = .ok ds → ∀ d ∈ ds, H.fill d ∈ ms) := by
  constructor
  · rw [shrink_eq_overflow_iff, ← halvable_iff, Halvable]
    simp only [not_forall, Nat.not_lt, exists_prop]
  · intro half
    obtain ⟨ms, shrunk⟩ := halvable_iff.1 half
    obtain ⟨cs, rfl, _⟩ := shrink_inv shrunk
    have mem {m} : m ∈ arrange n cs ↔ Reduces n m := ws.mem_shrink shrunk
    refine ⟨_, shrunk, fun _ => mem, nodup_arrange n cs, pairwise_arrange n cs, ?_, ?_, ?_, ?_⟩
    · intro m listed
      have red := mem.1 listed
      refine ⟨(mem_arrange.1 listed).2, ws.reduces red, red.size_le, ?_, fun v => red.literals_le⟩
      exact fun x named => mem_vars.2 (red.names_subset (mem_vars.1 named))
    · exact fun c child same => mem.2 (.here (.child child same))
    · intro command ne
      exact mem.2 (.here (.skip (ws.category_eq.trans command) ne))
    · rintro H c ds rfl shrunk d listed
      exact mem.2 (.inside ((Node.mem_shrink shrunk).1 listed).1)

/-- Adds a variable to a literal of 54 bits. -/
def wideSum : Node := .assign "x" (.arith .plus (.num 9007199254740995) (.var "y"))

/-- The same with the half of the even number to which the literal is rounded. -/
def halvedSum : Node := .assign "x" (.arith .plus (.num 4503599627370498) (.var "y"))

/-- The assignment of the sum is a command. -/
lemma wideSum_wellSorted : wideSum.WellSorted .command := by
  repeat constructor

/-- The literals of the sum have halves. -/
lemma wideSum_halvable : wideSum.Halvable := by
  intro v mem
  obtain rfl := List.mem_singleton.1 mem
  decide +kernel

/-- The sum is reduced by halving one of its literals. -/
lemma wideSum_reduces : Reduces wideSum halvedSum :=
  @Reduces.inside (.assign "x") _ _ (@Reduces.inside (.arithLeft .plus (.var "y")) _ _
    (.here (.half (by decide) (by decide +kernel))))

/-- A sum can become its operand, nothing at all or one with a rounded half. The first literal without a
half cannot be shrunk. -/
theorem wideSum_reductions :
    wideSum.WellSorted .command ∧ wideSum.Halvable ∧ (∃ ms, wideSum.shrink = .ok ms ∧ ms.Nodup ∧
      .skip ∈ ms ∧ .assign "x" (.num 9007199254740995) ∈ ms ∧ halvedSum ∈ ms) ∧
    (Node.num (2 ^ 1025 - 2 ^ 971 : Nat)).WellSorted .arith ∧
    (Node.num (2 ^ 1025 - 2 ^ 971 : Nat)).shrink = .error .overflow := by
  have ws := wideSum_wellSorted
  have half := wideSum_halvable
  obtain ⟨ms, shrunk, mem, nodup, _, _, _, skip, _⟩ := (shrink_lists_reductions ws).2 half
  have operand : Reduces wideSum (.assign "x" (.num 9007199254740995)) :=
    @Reduces.inside (.assign "x") _ _ (.here (.child List.mem_cons_self rfl))
  refine ⟨ws, half, ⟨ms, shrunk, nodup, ?_, (mem _).2 operand, (mem _).2 wideSum_reduces⟩, .num _, ?_⟩
  · exact skip rfl (by simp [wideSum])
  · apply (shrink_lists_reductions (.num _)).1.2
    exact ⟨_, List.mem_singleton_self _, by rw [Int.natAbs_natCast]⟩

end Node

end ImpSSA
