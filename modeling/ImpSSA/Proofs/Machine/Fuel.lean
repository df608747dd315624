import ImpSSA.Proofs.Machine.Steps

/-!
# Fuel

A bounded run either makes as many steps as it has fuel for, or comes before that to a state whose step
ends it (`steps_or_end`). The number of steps up to such an end does not depend on the fuel, so it is a
threshold: with less fuel the run is out of fuel on the way, and any more changes nothing
(`fuel_threshold`).
-/

namespace ImpSSA.Machine
open IR

/-- An outcome ends a run or has a state in which it goes on. -/
lemma Outcome.result?_or_next? (o : Outcome) :
    (∃ result, o.result? = some result) ∨ ∃ s, o.next? = some s := by
  cases o with
  | stepped s | external s => exact .inr ⟨s, rfl⟩
  | terminated | faulted | crashed => exact .inl ⟨_, rfl⟩

/-- No outcome of a step is for want of fuel. -/
lemma Outcome.result?_ne_outOfFuel {o : Outcome} {result : Result} (ends : o.result? = some result) :
    result ≠ .outOfFuel := by
  cases o with
  | stepped | external => cases ends
  | terminated | faulted | crashed =>
    cases ends
    nofun

/-- A step with a state in which the run goes on is the first of many. -/
lemma Steps.head {p s s' s'' n calls} (next : (step p s).next? = some s') (h : Steps p s' n calls s'') :
    ∃ calls', Steps p s (n + 1) calls' s'' := by
  cases st : step p s with
  | stepped =>
    rw [st] at next
    cases next
    exact ⟨_, .stepped st h⟩
  | external =>
    rw [st] at next
    cases next
    exact ⟨_, .external st h⟩
  | terminated | faulted | crashed =>
    rw [st] at next
    cases next

/-- There are as many steps as wanted from a state, or fewer of them lead to an end. -/
lemma steps_or_end (p : Program) (fuel : Nat) (s : State) :
    (∃ calls s', Steps p s fuel calls s') ∨
      ∃ n calls s' result, n < fuel ∧ Steps p s n calls s' ∧ (step p s').result? = some result := by
  induction fuel generalizing s with
  | zero => exact .inl ⟨[], s, .refl⟩
  | succ fuel ih =>
    obtain ⟨result, last⟩ | ⟨s₁, next⟩ := (step p s).result?_or_next?
    · exact .inr ⟨0, [], s, result, fuel.succ_pos, .refl, last⟩
    · obtain ⟨calls, s', steps⟩ | ⟨n, calls, s', result, less, steps, last⟩ := ih s₁
      · obtain ⟨calls', steps⟩ := steps.head next
        exact .inl ⟨calls', s', steps⟩
      · obtain ⟨calls', steps⟩ := steps.head next
        exact .inr ⟨n + 1, calls', s', result, Nat.succ_lt_succ less, steps, last⟩

/-- A run that returns, faults or crashes does so after the same steps with any fuel that allows them,
and nothing else about it depends on the fuel. With less, all fuel is spent and the external calls are
the first ones of the whole run. A run that is out of fuel has spent all of it. -/
theorem fuel_threshold {p : Program} {entry : Key} {s : State} (start : init p entry [] = .ok s)
    (fuel : Int) :
    ∃ r, run p entry fuel = .ok r ∧
      (r.result = .outOfFuel → r.steps = fuel.toNat) ∧
      (r.result ≠ .outOfFuel →
        1 ≤ r.steps ∧ r.steps ≤ fuel ∧
        (∀ fuel' : Int, r.steps ≤ fuel' → run p entry fuel' = .ok r) ∧
        ∀ fuel' : Int, fuel' < r.steps → ∃ calls, calls <+: r.calls ∧
          run p entry fuel' = .ok ⟨.outOfFuel, fuel'.toNat, calls⟩) := by
  obtain ⟨calls, s', steps⟩ | ⟨n, calls, s', result, less, steps, last⟩ :=
    steps_or_end p fuel.toNat s
  · obtain ⟨made, _, eq⟩ := steps.run_outOfFuel start fuel.self_le_toNat
    exact ⟨_, eq, fun _ => rfl, fun ends => absurd rfl ends⟩
  · have ends (fuel' : Int) (enough : (n + 1 : Nat) ≤ fuel') := steps.run_ends start last enough
    have notOut := Outcome.result?_ne_outOfFuel last
    refine ⟨_, ends fuel (by omega), fun out => absurd out notOut, fun _ => ?_⟩
    refine ⟨n.succ_pos, by simp only; omega, ends, fun fuel' short => ?_⟩
    exact steps.run_outOfFuel start (by simp only at short; omega)

/-- A program that calls a function defined elsewhere, and then has an instruction where nothing comes
after it. -/
def unfinished : Program :=
  ⟨[.declare ⟨.named "print", ⟨.void, [.i64]⟩⟩,
    .define ⟨.named "main", ⟨.void, []⟩, [],
      [⟨.anon 0,
        [(.void 1, .instr (.call .void (.global (.named "print")) [(.i64, .int 7)]))],
        (.void 2, .instr (.alloca .i64))⟩]⟩]⟩

/-- It crashes at its second step, with two units of fuel or more; one is spent on the call. -/
theorem unfinished_threshold :
    (∃ s, init unfinished (.named "main") [] = .ok s) ∧
    (∀ fuel : Int, 2 ≤ fuel → run unfinished (.named "main") fuel =
      .ok ⟨.crashed (.noSuccessor (.void 2)), 2, [(.named "print", [.int 7])]⟩) ∧
    ∀ fuel : Int, fuel < 2 → ∃ calls, calls <+: [(.named "print", [.int 7])] ∧
      run unfinished (.named "main") fuel = .ok ⟨.outOfFuel, fuel.toNat, calls⟩ := by
  obtain ⟨s, start⟩ : ∃ s, init unfinished (.named "main") [] = .ok s := ⟨_, rfl⟩
  have crashes : run unfinished (.named "main") 5 =
    .ok ⟨.crashed (.noSuccessor (.void 2)), 2, [(.named "print", [.int 7])]⟩ := rfl
  obtain ⟨r, ran, _, ends⟩ := fuel_threshold start 5
  cases crashes.symm.trans ran
  obtain ⟨_, _, enough, short⟩ := ends nofun
  exact ⟨⟨s, start⟩, enough, short⟩

end ImpSSA.Machine
