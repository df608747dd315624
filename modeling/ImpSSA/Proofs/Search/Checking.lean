import ImpSSA.Proofs.Search.Generation
import ImpSSA.Proofs.Search.Minimizing

/-!
# The search for a counterexample

The trials draw one command after the other, whether or not they are tested; `samples` draws them alone.
A search stops at the first of these samples that fails (`runTrials_finds`), and what it reports is a
failing command of which no candidate fails, unless the attempts were used up.
-/

namespace ImpSSA.Search
open Agreement Node

variable {σ : Type} [RandomSource σ]

/-- The commands of `n` trials. -/
def samples (size : Int) : Nat → Random σ (List Node)
  | 0 => pure []
  | n + 1 => do
    let c ← trial size
    let cs ← samples size n
    pure (c :: cs)

/-! ## The trials -/

/-- A trial draws a command with literals that can be halved. -/
lemma draws_trial {size : Int} (pos : 1 ≤ size) :
    Draws (trial size : Random σ Node) fun c => c.WellSorted .command ∧ c.Halvable := by
  refine (draws_between pos).bind fun n _ => ?_
  refine (draws_command (by simp [Vocabulary.standard]) _).imp fun c drawn => ⟨drawn.sorted, ?_⟩
  intro v mem
  have small : 10 < 2 ^ 1025 - 2 ^ 971 := by decide +kernel
  exact (drawn.covered.literals_le v mem).trans_lt small

/-- All trials draw a command, by induction on their number. -/
lemma draws_samples {size : Int} (pos : 1 ≤ size) (n : Nat) :
    Draws (samples size n : Random σ (List Node)) fun _ => True := by
  induction n with
  | zero => exact .pure trivial
  | succ n ih => exact (draws_trial pos).bind fun c _ => ih.bind fun cs _ => .pure trivial

section
variable {n done : Nat} {size budget : Int} {s t u : σ} {c : Node} {cs : List Node} {prop : Property}
  {report : Report}

/-- The first trial and the others after it. -/
lemma run_samples_succ (drawn : (trial size).run s = .ok c t) (rest : (samples size n).run t = .ok cs u) :
    (samples size (n + 1)).run s = .ok (c :: cs) u := by
  rw [samples, EStateM.run_bind, drawn]
  show EStateM.run (samples size n >>= fun cs => pure (c :: cs)) t = _
  rw [EStateM.run_bind, rest]
  rfl

/-- A command that passes is followed by the next trial. -/
lemma runTrials_passed (drawn : (trial size).run s = .ok c t) (tested : prop c = .ok report)
    (passed : report.passed = true) :
    runTrials prop size budget (n + 1) done s = runTrials prop size budget n (done + 1) t := by
  rw [runTrials, drawn]
  show (prop c).mapError SearchError.property >>= _ = _
  rw [tested]
  exact if_pos passed

/-- A command that fails is the last, and is minimized. -/
lemma runTrials_failed {best : Minimal} (drawn : (trial size).run s = .ok c t)
    (tested : prop c = .ok report) (failed : report.passed = false)
    (minimized : minimize prop c report budget = .ok best) :
    runTrials prop size budget (n + 1) done s = .ok (some (done + 1, ⟨c, best⟩)) := by
  rw [runTrials, drawn]
  show (prop c).mapError SearchError.property >>= _ = _
  rw [tested]
  refine (if_neg (ne_true_of_eq_false failed)).trans ?_
  rw [minimized]
  rfl

end

/-- The trials stop at the first sample that fails, and minimize it; they find nothing if there is none. -/
lemma runTrials_finds {prop : Property} (answers : Answers prop) {size : Int} (pos : 1 ≤ size) (budget : Int)
    (left done : Nat) (s : σ) :
    ∃ cs s', (samples size left).run s = .ok cs s' ∧
      ((∀ c ∈ cs, Passes prop c) ∧ runTrials prop size budget left done s = .ok none ∨
       ∃ before c after best, cs = before ++ c :: after ∧ (∀ d ∈ before, Passes prop d) ∧ Fails prop c ∧
        runTrials prop size budget left done s = .ok (some (done + before.length + 1, ⟨c, best⟩)) ∧
        Minimizes prop c budget.toNat best) := by
  induction left generalizing done s with
  | zero => exact ⟨[], s, rfl, .inl ⟨by simp, rfl⟩⟩
  | succ left ih =>
    obtain ⟨c, t, drawn, ws, half⟩ := draws_trial pos s
    obtain ⟨report, tested⟩ := answers c ws
    cases ok : report.passed with
    | true =>
      have passes : Passes prop c := ⟨report, tested, ok⟩
      obtain ⟨cs, u, rest, none | found⟩ := ih (done + 1) t
      · refine ⟨c :: cs, u, run_samples_succ drawn rest, .inl ⟨?_, ?_⟩⟩
        · exact List.forall_mem_cons.2 ⟨passes, none.1⟩
        · rw [runTrials_passed drawn tested ok, none.2]
      · obtain ⟨before, d, after, best, rfl, earlier, fails, eq, minimizes⟩ := found
        refine ⟨c :: (before ++ d :: after), u, run_samples_succ drawn rest, .inr ?_⟩
        refine ⟨c :: before, d, after, best, rfl, ?_, fails, ?_, minimizes⟩
        · exact List.forall_mem_cons.2 ⟨passes, earlier⟩
        · rw [runTrials_passed drawn tested ok, eq, List.length_cons, Nat.add_right_comm done]
          rfl
    | false =>
      obtain ⟨cs, u, rest, _⟩ := draws_samples pos left t
      obtain ⟨best, minimized, minimizes⟩ := minimize_minimizes answers ws half tested budget
      refine ⟨c :: cs, u, run_samples_succ drawn rest, .inr ⟨[], c, cs, best, rfl, by simp, ?_, ?_, minimizes⟩⟩
      · exact ⟨report, tested, ok⟩
      · exact runTrials_failed drawn tested ok minimized

/-- A search reports the first sample that fails and what it was minimized to. -/
lemma quickCheck_eq {prop : Property} {n : Nat} {trials size budget : Int} {s : σ} {ce : Counterexample}
    (found : runTrials prop size budget trials.toNat 0 s = .ok (some (n, ce))) :
    quickCheck prop trials size budget s = .ok ⟨n, some ce⟩ := by
  rw [quickCheck, found]
  rfl

/-- A search in which no sample fails reports that there is none. -/
lemma quickCheck_none {prop : Property} {trials size budget : Int} {s : σ}
    (found : runTrials prop size budget trials.toNat 0 s = .ok none) :
    quickCheck prop trials size budget s = .ok ⟨trials, none⟩ := by
  rw [quickCheck, found]
  rfl

/-- For a property that always answers, minimizing a command ends with a report on a command that was
reached by failing candidates; with attempts left over, none of its candidates fails. A search over
random commands reports the first of them that fails, with its number and with a failing command no
larger to which it was minimized, and it reports nothing exactly if none of them fails. -/
theorem counterexamples_genuine {prop : Property} (answers : Answers prop) :
    (∀ (c : Node) (report : Report) (budget : Int),
      c.WellSorted .command → c.Halvable → prop c = .ok report →
      ∃ best, minimize prop c report budget = .ok best ∧ prop best.node = .ok best.report ∧
        Relation.ReflTransGen (Improves prop) c best.node ∧
        best.node.size ≤ c.size ∧ (Fails prop c → Fails prop best.node) ∧
        best.attempts ≤ max budget 0 ∧
        (best.attempts < budget → ∃ ms, best.node.shrink = .ok ms ∧ ∀ m ∈ ms, Passes prop m)) ∧
    ∀ (trials budget size : Int) (s : σ), 1 ≤ size →
      ∃ cs s' found, (samples size trials.toNat).run s = .ok cs s' ∧
        quickCheck prop trials size budget s = .ok found ∧
        (found.counterexample = none ↔ ∀ c ∈ cs, Passes prop c) ∧
        ∀ ce, found.counterexample = some ce →
          (∃ before after, cs = before ++ ce.failure :: after ∧ found.trials = before.length + 1 ∧
            (∀ c ∈ before, Passes prop c) ∧ Fails prop ce.failure) ∧
          Fails prop ce.minimal.node ∧ ce.minimal.node.size ≤ ce.failure.size ∧
          prop ce.minimal.node = .ok ce.minimal.report := by
  constructor
  · intro c report budget ws half reported
    obtain ⟨best, eq, reached, attempts, least⟩ := minimize_minimizes answers ws half reported budget
    refine ⟨best, eq, reached.reported, reached.chain, size_le_of_chain reached.chain,
      fails_of_chain reached.chain, ?_, fun left => least (Int.lt_toNat.2 left)⟩
    omega
  · intro trials budget size s pos
    obtain ⟨cs, s', sampled, none | found⟩ := runTrials_finds answers pos budget trials.toNat 0 s
    · exact ⟨cs, s', _, sampled, quickCheck_none none.2, iff_of_true rfl none.1, by simp⟩
    · obtain ⟨before, c, after, best, rfl, passed, fails, found, minimizes⟩ := found
      have chain := minimizes.reached.chain
      refine ⟨_, s', _, sampled, quickCheck_eq found, iff_of_false (by simp) ?_, ?_⟩
      · exact fun all => fails.not_passes (all c (List.mem_append_right _ List.mem_cons_self))
      · rintro ce ⟨⟩
        refine ⟨⟨before, after, rfl, by simp, passed, fails⟩, fails_of_chain chain fails,
          size_le_of_chain chain, minimizes.reached.reported⟩

/-- Holds of commands that assign nothing. -/
def assignsNothing : Property := fun c =>
  .ok ⟨if c.assigned = [] then .agree else .mismatch, c.assigned = [], ", ".intercalate c.assigned⟩

/-- The second sample of a script is an assignment, and the search stops there. With attempts enough it is
minimized to an assignment of which all candidates assign nothing. -/
theorem assignsNothing_counterexample :
    let script : Script := ⟨[0, 0, 0, 50, 1, 50, 0, 0, 14, 99, 2], 0⟩
    let failure : Node := .assign "X" (.arith .plus (.num 4) (.var "Y"))
    Answers assignsNothing ∧
    (∃ found ce, quickCheck assignsNothing 2 1 100 script = .ok found ∧ found.trials = 2 ∧
      found.counterexample = some ce ∧ ce.failure = failure ∧
      Fails assignsNothing ce.minimal.node ∧ ce.minimal.node.size ≤ failure.size) ∧
    ∃ (budget : Int) (best : Minimal),
      minimize assignsNothing failure ⟨.mismatch, false, "X"⟩ budget = .ok best ∧
      best.attempts < budget ∧ Fails assignsNothing best.node ∧
      ∃ ms, best.node.shrink = .ok ms ∧ ∀ m ∈ ms, Passes assignsNothing m := by
  intro script failure
  have answers : Answers assignsNothing := fun c _ => ⟨_, rfl⟩
  have fails : Fails assignsNothing failure := ⟨_, rfl, rfl⟩
  obtain ⟨minimizes, checks⟩ := @counterexamples_genuine Script _ _ answers
  refine ⟨answers, ?_, ?_⟩
  · obtain ⟨cs, s', found, sampled, searched, none_iff, genuine⟩ := checks 2 100 1 script le_rfl
    have drawn : (samples 1 (Int.toNat 2)).run' script = some [.skip, failure] := by decide +kernel
    have listed : cs = [.skip, failure] := by
      delta EStateM.run' at drawn
      rw [sampled] at drawn
      exact Option.some.inj drawn
    obtain ⟨ce, reported⟩ : ∃ ce, found.counterexample = some ce := by
      apply Option.ne_none_iff_exists'.1
      rw [Ne, none_iff, listed]
      exact fun all => fails.not_passes (all failure (by simp))
    obtain ⟨⟨before, after, split, number, _, failed⟩, still, smaller, _⟩ := genuine ce reported
    rw [listed] at split
    rcases before with _ | ⟨first, _ | ⟨second, rest⟩⟩
    · obtain ⟨first, _⟩ := List.cons.inj split
      exact absurd ⟨_, rfl, rfl⟩ (first ▸ failed).not_passes
    · obtain ⟨_, second⟩ := List.cons.inj split
      obtain ⟨second, _⟩ := List.cons.inj second
      exact ⟨found, ce, searched, number, reported, second.symm, still, second ▸ smaller⟩
    · simp at split
  · have ws : failure.WellSorted .command := by
      repeat constructor
    have half : failure.Halvable := by
      intro v mem
      obtain rfl := List.mem_singleton.1 mem
      decide +kernel
    obtain ⟨enough, result, ends, early⟩ := minimize_ends assignsNothing ws ⟨.mismatch, false, "X"⟩
    obtain ⟨best, eq, _, _, _, still, _, least⟩ := minimizes failure ⟨.mismatch, false, "X"⟩ enough ws half rfl
    have left : (best.attempts : Int) < enough :=
      Int.ofNat_lt.2 (early best ((ends enough le_rfl).symm.trans eq))
    exact ⟨enough, best, eq, left, still fails, least left⟩

end ImpSSA.Search
