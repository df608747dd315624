import Mathlib.Tactic.Lemma
import ImpSSA.Machine.Run

/-!
# Counted runs of the machine

`Steps p s n calls s'` says that `n` steps lead from `s` to `s'` and make the external calls `calls`
on the way. `Steps.runFrom_eq` and `Steps.runFrom_short` turn it into statements about bounded runs: a
run with enough fuel goes on at `s'`, and one with less is still under way. `Reachable` collects the
states that a call of a function from outside can come to, and `Reachable.of_step` carries an
invariant to all of them.
-/

namespace ImpSSA.Machine
open IR

/-- `n` steps lead from one state to another, with the external calls in order. -/
inductive Steps (p : Program) : State → Nat → List (Key × List Value) → State → Prop where
  | refl {s} : Steps p s 0 [] s
  | stepped {s s' s'' e n calls} :
    step p s = .stepped s' e →
    Steps p s' n calls s'' →
    Steps p s (n + 1) calls s''
  | external {s s' s'' name args n calls} :
    step p s = .external s' name args →
    Steps p s' n calls s'' →
    Steps p s (n + 1) ((name, args) :: calls) s''

/-- The states that a call of `entry` from outside with `args` comes to. -/
def Reachable (p : Program) (entry : Key) (args : List Value) (s : State) : Prop :=
  ∃ s₀ n calls, init p entry args = .ok s₀ ∧ Steps p s₀ n calls s

/-- A run from outside starts at a definition, without callers and cells. -/
lemma of_init {p entry args s} (h : init p entry args = .ok s) :
    ∃ d pc, p.definition? entry = some d ∧ startOf d = some pc ∧
      s = ⟨pc, Table.ofList (d.params.zip args), [], []⟩ := by
  unfold init at h
  split at h
  · cases h
  · rename_i d defn
    split at h
    · split at h
      · rename_i pc start
        cases h
        exact ⟨d, pc, defn, start, rfl⟩
      · cases h
    · cases h

/-- One internal step. -/
lemma Steps.one {p s s' e} (st : step p s = .stepped s' e) : Steps p s 1 [] s' :=
  .stepped st .refl

/-- Steps can be put one after the other. -/
lemma Steps.trans {p s s' s'' m n calls calls'} (h : Steps p s m calls s')
    (h' : Steps p s' n calls' s'') : Steps p s (m + n) (calls ++ calls') s'' := by
  induction h with
  | refl => simpa using h'
  | @stepped s _ _ _ m _ st _ ih =>
    rw [Nat.add_right_comm]
    exact .stepped st (ih h')
  | @external s _ _ _ _ m _ st _ ih =>
    rw [Nat.add_right_comm]
    exact .external st (ih h')

/-- Internal steps can be put one after the other. -/
lemma Steps.trans_nil {p s s' s'' m n} (h : Steps p s m [] s') (h' : Steps p s' n [] s'') :
    Steps p s (m + n) [] s'' :=
  h.trans h'

/-- A run with fuel for the steps goes on behind them. -/
lemma Steps.runFrom_eq {p s s' n calls} (h : Steps p s n calls s') (fuel steps : Nat)
    (acc : Array (Key × List Value)) :
    runFrom p (n + fuel) steps acc s = runFrom p fuel (steps + n) (acc ++ calls) s' := by
  induction h generalizing steps acc with
  | refl => simp
  | @stepped s _ _ _ n _ st _ ih =>
    rw [Nat.add_right_comm, runFrom, st]
    simp only [ih]
    rw [Nat.add_assoc steps, Nat.add_comm 1]
  | @external s _ _ _ _ n _ st _ ih =>
    rw [Nat.add_right_comm, runFrom, st]
    simp only [ih]
    rw [Nat.add_assoc steps, Nat.add_comm 1]
    simp

/-- A run without fuel for all of the steps ends on the way. -/
lemma Steps.runFrom_short {p s s' n calls fuel} (h : Steps p s n calls s') (short : fuel ≤ n)
    (steps : Nat) (acc : Array (Key × List Value)) :
    ∃ made, made <+: calls ∧
      runFrom p fuel steps acc s = ⟨.outOfFuel, steps + fuel, (acc ++ made).toList⟩ := by
  induction h generalizing fuel steps acc with
  | refl =>
    obtain rfl : fuel = 0 := by omega
    exact ⟨[], List.nil_prefix, by simp [runFrom]⟩
  | @stepped s _ _ _ n calls st _ ih =>
    cases fuel with
    | zero => exact ⟨[], List.nil_prefix, by simp [runFrom]⟩
    | succ fuel =>
      obtain ⟨made, pre, eq⟩ := ih (Nat.le_of_succ_le_succ short) (steps + 1) acc
      refine ⟨made, pre, ?_⟩
      rw [runFrom, st]
      simp only [eq]
      rw [Nat.add_assoc, Nat.add_comm 1]
  | @external s _ _ name args n calls st _ ih =>
    cases fuel with
    | zero => exact ⟨[], List.nil_prefix, by simp [runFrom]⟩
    | succ fuel =>
      obtain ⟨made, pre, eq⟩ := ih (Nat.le_of_succ_le_succ short) (steps + 1) (acc.push (name, args))
      refine ⟨(name, args) :: made, by simpa using pre, ?_⟩
      rw [runFrom, st]
      simp only [eq]
      rw [Nat.add_assoc, Nat.add_comm 1]
      simp

/-- How an outcome ends a run. -/
def Outcome.result? : Outcome → Option Result
  | .terminated memory v => some (.finished memory v)
  | .faulted f => some (.failed f)
  | .crashed c => some (.crashed c)
  | .stepped .. | .external .. => none

/-- A run with fuel ends where a step does. -/
lemma runFrom_last {p s result} (last : (step p s).result? = some result) (fuel steps : Nat)
    (acc : Array (Key × List Value)) :
    runFrom p (fuel + 1) steps acc s = ⟨result, steps + 1, acc.toList⟩ := by
  rw [runFrom]
  cases eq : step p s with
  | stepped | external =>
    rw [eq] at last
    cases last
  | terminated | faulted | crashed =>
    rw [eq] at last
    cases last
    rfl

/-- A run with fuel for the steps and one more behind them ends as that one does. -/
lemma Steps.run_ends {p entry s₀ s n calls result} (h : Steps p s₀ n calls s)
    (start : init p entry [] = .ok s₀) (last : (step p s).result? = some result) {fuel : Int}
    (enough : (n + 1 : Nat) ≤ fuel) : Machine.run p entry fuel = .ok ⟨result, n + 1, calls⟩ := by
  obtain ⟨rest, eq⟩ := Nat.exists_eq_add_of_le (show n + 1 ≤ fuel.toNat by omega)
  have split : fuel.toNat = n + (rest + 1) := by omega
  rw [Machine.run, if_neg (by omega), start, split]
  simp only [bind, Except.bind, pure, Except.pure, h.runFrom_eq, runFrom_last last]
  simp

/-- A run with fuel for the steps and the return behind them is finished. -/
lemma Steps.run_eq {p entry s₀ s n calls memory v} (h : Steps p s₀ n calls s)
    (start : init p entry [] = .ok s₀) (last : step p s = .terminated memory v) {fuel : Int}
    (enough : (n + 1 : Nat) ≤ fuel) :
    Machine.run p entry fuel = .ok ⟨.finished memory v, n + 1, calls⟩ :=
  h.run_ends start (by rw [last]; rfl) enough

/-- A run without fuel for more than the steps is out of fuel, and has made the first of the external
calls. -/
lemma Steps.run_outOfFuel {p entry s₀ s n calls} (h : Steps p s₀ n calls s)
    (start : init p entry [] = .ok s₀) {fuel : Int} (short : fuel ≤ n) :
    ∃ made, made <+: calls ∧ Machine.run p entry fuel = .ok ⟨.outOfFuel, fuel.toNat, made⟩ := by
  rw [Machine.run]
  split
  · rename_i none
    rw [Int.toNat_of_nonpos none]
    exact ⟨[], List.nil_prefix, rfl⟩
  · obtain ⟨made, pre, eq⟩ := h.runFrom_short (show fuel.toNat ≤ n by omega) 0 #[]
    refine ⟨made, pre, ?_⟩
    rw [start]
    simp only [bind, Except.bind, pure, Except.pure, eq]
    simp

/-- A run without fuel for all of the steps is out of fuel. -/
lemma Steps.run_short {p entry s₀ s n} (h : Steps p s₀ n [] s) (start : init p entry [] = .ok s₀)
    {fuel : Int} (short : fuel ≤ n) :
    Machine.run p entry fuel = .ok ⟨.outOfFuel, fuel.toNat, []⟩ := by
  obtain ⟨made, pre, eq⟩ := h.run_outOfFuel start short
  rw [eq, List.prefix_nil.1 pre]

/-- What every step preserves holds after any number of them. -/
lemma Steps.preserves {p s s' n calls} {I : State → Prop} (h : Steps p s n calls s')
    (preserved : ∀ {s s'}, I s → (step p s).next? = some s' → I s') (holds : I s) : I s' := by
  induction h with
  | refl => exact holds
  | stepped st _ ih => exact ih (preserved holds (by rw [st]; rfl))
  | external st _ ih => exact ih (preserved holds (by rw [st]; rfl))

/-- What holds at the start and is preserved by every step holds of every reachable state. -/
lemma Reachable.of_step {p entry args s} {I : State → Prop} (h : Reachable p entry args s)
    (start : ∀ {s₀}, init p entry args = .ok s₀ → I s₀)
    (preserved : ∀ {s s'}, I s → (step p s).next? = some s' → I s') : I s := by
  obtain ⟨s₀, n, calls, eq, steps⟩ := h
  exact steps.preserves preserved (start eq)

end ImpSSA.Machine
