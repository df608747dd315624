import Mathlib.Logic.Relation
import Mathlib.Order.WellFounded
import ImpSSA.Search.Check
import ImpSSA.Proofs.Search.Shrinking

/-!
# Minimizing a failing command

A command is replaced by one of its reductions only if that one fails, so `minimize` goes along a chain of
failing reductions (`Improves`). The attempts that are left and the candidates that are not tried yet
are shared by all of its rounds; what a round has tried without success is the part of its list before
the candidates that are left (`descend_minimizes`). Since reductions come to an end, the chain does so
too, and a budget beyond that makes no difference (`minimize_ends`).
-/

namespace ImpSSA.Search
open Agreement Node

/-- The property holds of the command. -/
def Passes (prop : Property) (c : Node) : Prop := ∃ report, prop c = .ok report ∧ report.passed = true

/-- The property does not hold of the command. -/
def Fails (prop : Property) (c : Node) : Prop := ∃ report, prop c = .ok report ∧ report.passed = false

/-- A property does not fail where it passes. -/
lemma Fails.not_passes {prop : Property} {c : Node} (fails : Fails prop c) : ¬ Passes prop c := by
  obtain ⟨report, tested, failed⟩ := fails
  rintro ⟨report', tested', passed⟩
  cases tested.symm.trans tested'
  exact ne_true_of_eq_false failed passed

/-- A command may give way to another one: to a candidate that fails. -/
def Improves (prop : Property) (c d : Node) : Prop := (∃ ds, c.shrink = .ok ds ∧ d ∈ ds) ∧ Fails prop d

/-! ## One attempt -/

section
variable {prop : Property} {best : Minimal} {c : Node} {cs : List Node} {budget : Nat}

/-- Without candidates the best command stays. -/
lemma descend_nil : descend prop budget best [] = .ok best := by
  cases budget <;> rfl

/-- An abort of the property ends the search. -/
lemma descend_abort {e : Abort} (tested : prop c = .error e) :
    descend prop (budget + 1) best (c :: cs) = .error (.property e) := by
  rw [descend, tested]
  rfl

/-- A candidate of which the property holds costs an attempt. -/
lemma descend_passed {report : Report} (tested : prop c = .ok report) (passed : report.passed = true) :
    descend prop (budget + 1) best (c :: cs) =
      descend prop budget { best with attempts := best.attempts + 1 } cs := by
  rw [descend, tested]
  exact if_pos passed

/-- A candidate that fails at the last attempt is the best command. -/
lemma descend_last {report : Report} (tested : prop c = .ok report) (failed : report.passed = false) :
    descend prop 1 best (c :: cs) = .ok ⟨c, report, best.attempts + 1⟩ := by
  rw [descend, tested]
  exact if_neg (ne_true_of_eq_false failed)

/-- A candidate that fails before that is the best command so far, and its own candidates come next. -/
lemma descend_failed {report : Report} (tested : prop c = .ok report) (failed : report.passed = false) :
    descend prop (budget + 2) best (c :: cs) =
      c.shrink.mapError .shrink >>= descend prop (budget + 1) ⟨c, report, best.attempts + 1⟩ := by
  rw [descend, tested]
  exact if_neg (ne_true_of_eq_false failed)

end

/-! ## The end of the chain -/

/-- The search among the reductions of a command ends with the same result, and by itself, for every
budget that is large enough. -/
lemma descend_ends (prop : Property) {n : Node} (acc : Acc (fun m n => Reduces n m) n) (report : Report)
    (attempts : Nat) {untried : List Node} (reductions : ∀ m ∈ untried, Reduces n m) :
    ∃ enough result,
      (∀ budget, enough ≤ budget → descend prop budget ⟨n, report, attempts⟩ untried = result) ∧
      ∀ best, result = .ok best → best.attempts < attempts + enough := by
  induction acc generalizing report attempts untried with
  | intro n _ ih =>
    -- the chain may go on from any candidate, and the candidates themselves are gone through
    induction untried generalizing attempts with
    | nil =>
      refine ⟨1, .ok ⟨n, report, attempts⟩, fun budget _ => descend_nil, ?_⟩
      rintro best ⟨⟩
      exact Nat.lt_succ_self _
    | cons c cs ihcs =>
      obtain ⟨red, rest⟩ := List.forall_mem_cons.1 reductions
      cases tested : prop c with
      | error e =>
        refine ⟨1, .error (.property e), fun budget enough => ?_, by simp⟩
        obtain ⟨budget, rfl⟩ := Nat.exists_eq_add_of_le' enough
        exact descend_abort tested
      | ok report' =>
        cases passed : report'.passed with
        | true =>
          obtain ⟨enough, result, ends, early⟩ := ihcs (attempts + 1) rest
          refine ⟨enough + 1, result, fun budget le => ?_, fun best eq => ?_⟩
          · obtain ⟨budget, rfl⟩ := Nat.exists_eq_add_of_le' (Nat.le_of_add_left_le le)
            rw [descend_passed tested passed]
            exact ends budget (Nat.le_of_add_le_add_right le)
          · have := early best eq
            omega
        | false =>
          cases shrunk : c.shrink with
          | error e =>
            refine ⟨2, .error (.shrink e), fun budget enough => ?_, by simp⟩
            obtain ⟨budget, rfl⟩ := Nat.exists_eq_add_of_le' enough
            rw [descend_failed tested passed, shrunk]
            rfl
          | ok next =>
            obtain ⟨enough, result, ends, early⟩ := ih c red report' (attempts + 1)
              fun m mem => ((mem_shrink shrunk).1 mem).1
            refine ⟨enough + 2, result, fun budget le => ?_, fun best eq => ?_⟩
            · obtain ⟨budget, rfl⟩ := Nat.exists_eq_add_of_le' (Nat.le_of_add_left_le le)
              rw [descend_failed tested passed, shrunk]
              exact ends (budget + 1) (by omega)
            · have := early best eq
              omega

/-- A search within a budget begins with the candidates of the command. -/
lemma minimize_eq {prop : Property} {c : Node} {report : Report} {budget : Int} {ms : List Node}
    (pos : 0 < budget) (shrunk : c.shrink = .ok ms) :
    minimize prop c report budget = descend prop budget.toNat ⟨c, report, 0⟩ ms := by
  rw [minimize, if_neg (Int.not_le.2 pos), shrunk]
  rfl

/-- Minimizing ends with the same result, and by itself, for every budget that is large enough. -/
lemma minimize_ends (prop : Property) {n : Node} {k : Category} (ws : n.WellSorted k) (report : Report) :
    ∃ (enough : Nat) (result : Except SearchError Minimal),
      (∀ budget : Int, enough ≤ budget → minimize prop n report budget = result) ∧
      ∀ best, result = .ok best → best.attempts < enough := by
  cases shrunk : n.shrink with
  | error e =>
    refine ⟨1, .error (.shrink e), fun budget enough => ?_, by simp⟩
    rw [minimize, if_neg (by omega), shrunk]
    rfl
  | ok ms =>
    obtain ⟨enough, result, ends, early⟩ := descend_ends prop ws.acc_reduces report 0
      fun m mem => (ws.mem_shrink shrunk).1 mem
    refine ⟨enough + 1, result, fun budget le => ?_, fun best eq => ?_⟩
    · rw [minimize_eq (by omega) shrunk]
      exact ends budget.toNat (by omega)
    · have := early best eq
      omega

/-- Every candidate is below the tree in a well-founded order: it is smaller, or as large with fewer
variables, or with as many variables and smaller literals. So there is no endless chain of candidates,
and minimizing a command comes to an end by itself for every property: beyond some budget the result is
the same, and not all attempts are made. -/
theorem candidates_descend {n : Node} {k : Category} (ws : n.WellSorted k) :
    WellFounded (fun a b : Node => a.rank < b.rank) ∧
    (∀ ms, n.shrink = .ok ms → ∀ m ∈ ms, m.rank < n.rank) ∧
    (¬ ∃ chain : Nat → Node, chain 0 = n ∧
      ∀ i, ∃ ms, (chain i).shrink = .ok ms ∧ chain (i + 1) ∈ ms) ∧
    ∀ (prop : Property) (report : Report), ∃ (enough : Nat) (result : Except SearchError Minimal),
      (∀ budget : Int, enough ≤ budget → minimize prop n report budget = result) ∧
      ∀ best, result = .ok best → best.attempts < enough := by
  refine ⟨InvImage.wf rank wellFounded_lt, ?_, ?_, fun prop report => minimize_ends prop ws report⟩
  · intro ms shrunk m mem
    exact ((ws.mem_shrink shrunk).1 mem).rank_lt ws
  · rintro ⟨chain, start, next⟩
    have reduces (i : Nat) : Reduces (chain i) (chain (i + 1)) := by
      obtain ⟨ms, shrunk, mem⟩ := next i
      exact ((mem_shrink shrunk).1 mem).1
    exact (acc_iff_isEmpty_descending_chain.1 ws.acc_reduces).false ⟨chain, start, reduces⟩

/-- A rounded half makes a sum no smaller, but puts it lower in the order. A property that fails of
everything goes along a chain as long as there is one, and not for ever. -/
theorem wideSum_descends :
    wideSum.WellSorted .command ∧ halvedSum.size = wideSum.size ∧ halvedSum.rank < wideSum.rank ∧
    (¬ ∃ chain : Nat → Node, chain 0 = wideSum ∧
      ∀ i, ∃ ms, (chain i).shrink = .ok ms ∧ chain (i + 1) ∈ ms) ∧
    ∃ (enough : Nat) (result : Except SearchError Minimal), ∀ budget : Int, enough ≤ budget →
      minimize (fun _ => .ok ⟨.mismatch, false, ""⟩) wideSum ⟨.mismatch, false, ""⟩ budget = result := by
  obtain ⟨_, lower, endless, ends⟩ := candidates_descend wideSum_wellSorted
  obtain ⟨ms, shrunk⟩ := halvable_iff.1 wideSum_halvable
  have mem := (wideSum_wellSorted.mem_shrink shrunk).2 wideSum_reduces
  obtain ⟨enough, result, same, _⟩ := ends (fun _ => .ok ⟨.mismatch, false, ""⟩) ⟨.mismatch, false, ""⟩
  exact ⟨wideSum_wellSorted, rfl, lower ms shrunk _ mem, endless, enough, result, same⟩

/-! ## What is reached -/

/-- The property gives a report on every well-sorted command. -/
def Answers (prop : Property) : Prop := ∀ c : Node, c.WellSorted .command → ∃ report, prop c = .ok report

/-- A command was reached from `c` by failing candidates, and the report is on it. -/
structure Reached (prop : Property) (c : Node) (best : Minimal) : Prop where
  sorted : best.node.WellSorted .command
  halvable : best.node.Halvable
  reported : prop best.node = .ok best.report
  chain : Relation.ReflTransGen (Improves prop) c best.node

/-- No command of a chain is larger than the first. -/
lemma size_le_of_chain {prop : Property} {c d : Node}
    (chain : Relation.ReflTransGen (Improves prop) c d) : d.size ≤ c.size := by
  induction chain with
  | refl => exact le_rfl
  | tail _ step ih =>
    obtain ⟨⟨ms, shrunk, mem⟩, _⟩ := step
    exact ((mem_shrink shrunk).1 mem).1.size_le.trans ih

/-- A chain that starts with a failing command ends with one. -/
lemma fails_of_chain {prop : Property} {c d : Node} (chain : Relation.ReflTransGen (Improves prop) c d)
    (fails : Fails prop c) : Fails prop d := by
  cases chain with
  | refl => exact fails
  | tail _ step => exact step.2

/-- What was reached with at most `limit` attempts; if one of them was left, no candidate fails. -/
structure Minimizes (prop : Property) (c : Node) (limit : Nat) (best : Minimal) : Prop where
  reached : Reached prop c best
  attempts_le : best.attempts ≤ limit
  least : best.attempts < limit → ∃ ms, best.node.shrink = .ok ms ∧ ∀ m ∈ ms, Passes prop m

/-- A failing candidate is reached next. -/
lemma Reached.next {prop : Property} {c d : Node} {best : Minimal} {ms : List Node} {report : Report}
    (reached : Reached prop c best) (shrunk : best.node.shrink = .ok ms) (mem : d ∈ ms)
    (tested : prop d = .ok report) (failed : report.passed = false) (attempts : Nat) :
    Reached prop c ⟨d, report, attempts⟩ where
  sorted := reached.sorted.reduces ((reached.sorted.mem_shrink shrunk).1 mem)
  halvable := reached.halvable.reduces ((reached.sorted.mem_shrink shrunk).1 mem)
  reported := tested
  chain := reached.chain.tail ⟨⟨ms, shrunk, mem⟩, report, tested, failed⟩

/-- The search goes on from what was reached. The candidates that were tried so far all pass, so nothing
is left to try if the list comes to its end. -/
lemma descend_minimizes {prop : Property} (answers : Answers prop) {c : Node} {best : Minimal}
    (tried : List Node) {untried : List Node} (budget : Nat) (reached : Reached prop c best)
    (shrunk : best.node.shrink = .ok (tried ++ untried)) (passed : ∀ m ∈ tried, Passes prop m) :
    ∃ best', descend prop budget best untried = .ok best' ∧
      Minimizes prop c (best.attempts + budget) best' := by
  induction budget generalizing best tried untried with
  | zero => exact ⟨best, rfl, reached, le_rfl, fun lt => absurd lt (lt_irrefl _)⟩
  | succ budget ih =>
    cases untried with
    | nil =>
      rw [List.append_nil] at shrunk
      exact ⟨best, descend_nil, reached, Nat.le_add_right _ _, fun _ => ⟨tried, shrunk, passed⟩⟩
    | cons d ds =>
      have mem : d ∈ tried ++ d :: ds := List.mem_append_right _ List.mem_cons_self
      have red : Reduces best.node d := (reached.sorted.mem_shrink shrunk).1 mem
      obtain ⟨report, tested⟩ := answers d (reached.sorted.reduces red)
      have count : best.attempts + (budget + 1) = best.attempts + 1 + budget := by omega
      rw [count]
      cases ok : report.passed with
      | true =>
        rw [descend_passed tested ok]
        apply ih (tried ++ [d])
        · exact ⟨reached.sorted, reached.halvable, reached.reported, reached.chain⟩
        · rw [List.append_assoc]
          exact shrunk
        · exact List.forall_mem_append.2 ⟨passed, List.forall_mem_singleton.2 ⟨report, tested, ok⟩⟩
      | false =>
        have next := reached.next shrunk mem tested ok (best.attempts + 1)
        cases budget with
        | zero => exact ⟨_, descend_last tested ok, next, le_rfl, fun lt => absurd lt (lt_irrefl _)⟩
        | succ budget =>
          obtain ⟨ms, shrunk⟩ := halvable_iff.1 next.halvable
          rw [descend_failed tested ok, shrunk]
          exact ih [] next shrunk (by simp)

/-- Minimizing a command without literals that are too large gives a command that was reached. -/
lemma minimize_minimizes {prop : Property} (answers : Answers prop) {c : Node} {report : Report}
    (ws : c.WellSorted .command) (half : c.Halvable) (reported : prop c = .ok report) (budget : Int) :
    ∃ best, minimize prop c report budget = .ok best ∧ Minimizes prop c budget.toNat best := by
  have start : Reached prop c ⟨c, report, 0⟩ := ⟨ws, half, reported, .refl⟩
  by_cases pos : 0 < budget
  · obtain ⟨ms, shrunk⟩ := halvable_iff.1 half
    obtain ⟨best, eq, minimizes⟩ := descend_minimizes answers [] budget.toNat start shrunk (by simp)
    rw [Nat.zero_add] at minimizes
    exact ⟨best, (minimize_eq pos shrunk).trans eq, minimizes⟩
  · refine ⟨_, if_pos (Int.not_lt.1 pos), start, Nat.zero_le _, fun left => ?_⟩
    exact absurd (Int.lt_toNat.1 left) pos

end ImpSSA.Search
