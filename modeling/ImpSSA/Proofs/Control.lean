import Mathlib.Tactic.Lemma

/-!
# Computations that may fail

When a composed computation succeeds: a sequence does if both of its parts do, and a loop or a map over
a list if every round does. Where it fails, one of the parts does. A step that does not always lead on is
iterated by `stateAfter`.
-/

namespace ImpSSA

variable {ε α β : Type}

/-- The state after `i` steps from `s`, or the last one if there are less. -/
def stateAfter {σ : Type} (next? : σ → Option σ) (s : σ) : (i : Nat) → σ
  | 0 => s
  | i + 1 =>
    match next? s with
    | some s' => stateAfter next? s' i
    | none => s

/-- A step behind the others leads to the next state. -/
lemma stateAfter_succ {σ : Type} {next? : σ → Option σ} {s s' : σ} {i : Nat}
    (next : next? (stateAfter next? s i) = some s') : stateAfter next? s (i + 1) = s' := by
  induction i generalizing s with
  | zero =>
    rw [stateAfter] at next
    rw [stateAfter, next]
    rfl
  | succ i ih =>
    rw [stateAfter] at next ⊢
    cases first : next? s with
    | some s₁ =>
      rw [first] at next
      exact ih next
    | none =>
      rw [first] at next
      cases first.symm.trans next

/-- A sequence succeeds if both of its parts do. -/
lemma bind_eq_ok {x : Except ε α} {f : α → Except ε β} {b : β} :
    x >>= f = .ok b ↔ ∃ a, x = .ok a ∧ f a = .ok b := by
  cases x with
  | error e => simp [bind, Except.bind]
  | ok a => simp [bind, Except.bind]

/-- A sequence whose first part has no value succeeds if both parts do. -/
lemma bind_unit_eq_ok {x : Except ε Unit} {f : Unit → Except ε β} {b : β} :
    x >>= f = .ok b ↔ x = .ok () ∧ f () = .ok b :=
  bind_eq_ok.trans ⟨fun ⟨_, h, h'⟩ => ⟨h, h'⟩, fun ⟨h, h'⟩ => ⟨(), h, h'⟩⟩

/-- A sequence fails if its first part does, or its second part after the first. -/
lemma bind_eq_error {x : Except ε α} {f : α → Except ε β} {e : ε} :
    x >>= f = .error e ↔ x = .error e ∨ ∃ a, x = .ok a ∧ f a = .error e := by
  cases x with
  | error e => simp [bind, Except.bind]
  | ok a => simp [bind, Except.bind]

/-- A success has no error to name in another way. -/
@[simp]
lemma mapError_ok {ε' : Type} {f : ε → ε'} {a : α} :
    (.ok a : Except ε α).mapError f = .ok a := rfl

/-- An error is named in another way. -/
@[simp]
lemma mapError_error {ε' : Type} {f : ε → ε'} {e : ε} :
    (.error e : Except ε α).mapError f = .error (f e) := rfl

/-- Naming an error in another way does not change success. -/
lemma mapError_eq_ok {ε' : Type} {x : Except ε α} {f : ε → ε'} {a : α} :
    x.mapError f = .ok a ↔ x = .ok a := by
  cases x <;> simp

/-- A loop succeeds if every round does. -/
lemma forM_eq_ok {xs : List α} {f : α → Except ε Unit} :
    xs.forM f = .ok () ↔ ∀ x ∈ xs, f x = .ok () := by
  induction xs with
  | nil => simp [pure, Except.pure]
  | cons x xs ih =>
    rw [List.forM_eq_forM] at ih
    rw [List.forM_eq_forM, List.forM_cons, bind_unit_eq_ok, List.forall_mem_cons, ih]

/-- A loop that fails does so in one of its rounds. -/
lemma of_forM_eq_error {xs : List α} {f : α → Except ε Unit} {e : ε} (h : xs.forM f = .error e) :
    ∃ x ∈ xs, f x = .error e := by
  induction xs with
  | nil => cases h
  | cons x xs ih =>
    rw [List.forM_eq_forM, List.forM_cons] at h
    rcases bind_eq_error.1 h with first | ⟨_, _, rest⟩
    · exact ⟨x, List.mem_cons_self, first⟩
    · obtain ⟨y, mem, fails⟩ := ih rest
      exact ⟨y, List.mem_cons_of_mem _ mem, fails⟩

/-- Mapping goes through the members one by one. -/
lemma mapM_cons_ok {f : α → Except ε β} {a : α} {b : β} {as : List α} {bs : List β}
    (first : f a = .ok b) (rest : as.mapM f = .ok bs) : (a :: as).mapM f = .ok (b :: bs) := by
  rw [List.mapM_cons, first, rest]
  rfl

/-- Mapping succeeds if it does so for every member. -/
lemma exists_mapM_eq_ok {xs : List α} {f : α → Except ε β} :
    (∃ ys, xs.mapM f = .ok ys) ↔ ∀ x ∈ xs, ∃ y, f x = .ok y := by
  induction xs with
  | nil => simp [pure, Except.pure]
  | cons x xs ih =>
    rw [List.forall_mem_cons, ← ih, List.mapM_cons]
    constructor
    · rintro ⟨ys, eq⟩
      obtain ⟨y, first, eq⟩ := bind_eq_ok.1 eq
      obtain ⟨ys', rest, _⟩ := bind_eq_ok.1 eq
      exact ⟨⟨y, first⟩, ⟨ys', rest⟩⟩
    · rintro ⟨⟨y, first⟩, ⟨ys, rest⟩⟩
      exact ⟨y :: ys, bind_eq_ok.2 ⟨y, first, bind_eq_ok.2 ⟨ys, rest, rfl⟩⟩⟩

/-- What is mapped to is what the members are mapped to. -/
lemma mem_of_mapM_eq_ok {xs : List α} {ys : List β} {f : α → Except ε β} (h : xs.mapM f = .ok ys)
    {y : β} : y ∈ ys ↔ ∃ x ∈ xs, f x = .ok y := by
  induction xs generalizing ys with
  | nil =>
    cases h
    simp
  | cons x xs ih =>
    rw [List.mapM_cons] at h
    obtain ⟨z, first, h⟩ := bind_eq_ok.1 h
    obtain ⟨zs, rest, h⟩ := bind_eq_ok.1 h
    cases h
    simp only [List.mem_cons, exists_eq_or_imp, ih rest, first, Except.ok.injEq, eq_comm (a := z)]

end ImpSSA
