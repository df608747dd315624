import Mathlib.Data.List.Nodup
import Mathlib.Tactic.Lemma

/-!
# Facts about lists

Where a member of appended lists stands, what is kept by maps that tell less, and what distinct members
or keys are good for.
-/

namespace ImpSSA

variable {α β γ κ : Type}

/-- A place of appended lists is in the first, or in the second behind the first. -/
lemma place_append {xs ys pre post : List α} {x : α} (eq : xs ++ ys = pre ++ x :: post) :
    (∃ post', xs = pre ++ x :: post') ∨ ∃ pre', pre = xs ++ pre' ∧ ys = pre' ++ x :: post := by
  rcases List.append_eq_append_iff.1 eq with ⟨pre', rfl, rest⟩ | ⟨post', rfl, rest⟩
  · exact .inr ⟨pre', rfl, rest⟩
  · cases post' with
    | nil => exact .inr ⟨[], by simp, rest.symm⟩
    | cons y post' =>
      obtain ⟨rfl, _⟩ := List.cons.inj rest
      exact .inl ⟨post', rfl⟩

/-- A list that differs from the beginning of another is not a prefix of it. -/
lemma not_prefix_append {t u rest : List α} (differ : ¬ t <+: u ∧ ¬ u <+: t) :
    ¬ t <+: u ++ rest := by
  intro h
  rcases List.prefix_or_prefix_of_prefix h (List.prefix_append u rest) with h | h
  · exact differ.1 h
  · exact differ.2 h

/-- A map that keeps less keeps a sublist. -/
lemma filterMap_sublist {f g : α → Option β} (h : ∀ a b, f a = some b → g a = some b)
    (l : List α) : (l.filterMap f).Sublist (l.filterMap g) := by
  induction l with
  | nil => exact .slnil
  | cons a l ih =>
    cases eq : f a with
    | none =>
      rw [List.filterMap_cons_none eq]
      refine ih.trans ?_
      rw [List.filterMap_cons]
      split
      · exact .refl _
      · exact List.sublist_cons_self ..
    | some b =>
      rw [List.filterMap_cons_some eq, List.filterMap_cons_some (h a b eq)]
      exact ih.cons_cons b

/-- Lists that one function maps to the same are mapped to the same by another one that tells less. -/
lemma map_eq_of_map_eq {f : α → β} {g : α → γ} {l l' : List α}
    (coarser : ∀ a ∈ l, ∀ b ∈ l', f a = f b → g a = g b) (eq : l.map f = l'.map f) :
    l.map g = l'.map g := by
  induction l generalizing l' with
  | nil =>
    obtain rfl := List.map_eq_nil_iff.1 eq.symm
    rfl
  | cons a l ih =>
    cases l' with
    | nil => cases eq
    | cons b l' =>
      obtain ⟨head, tail⟩ := List.cons.inj eq
      obtain ⟨first, rest⟩ := List.forall_mem_cons.1 coarser
      have heads := (List.forall_mem_cons.1 first).1 head
      rw [List.map_cons, List.map_cons, heads,
        ih (fun a mem => (List.forall_mem_cons.1 (rest a mem)).2) tail]

/-- Changing the place of one of distinct elements changes only what it is mapped to. -/
lemma set_map {l : List α} {a : Nat} {x : α} {f g : α → β} (distinct : l.Nodup)
    (found : l[a]? = some x) (others : ∀ y, y ≠ x → f y = g y) : (l.map f).set a (g x) = l.map g := by
  induction l generalizing a with
  | nil => cases found
  | cons y l ih =>
    obtain ⟨fresh, distinct⟩ := List.nodup_cons.1 distinct
    cases a with
    | zero =>
      cases found
      have rest : l.map f = l.map g := List.map_congr_left fun z mem =>
        others z fun eq => fresh (eq ▸ mem)
      simp [rest]
    | succ a =>
      have ne : y ≠ x := fun eq => fresh (eq ▸ List.mem_of_getElem? found)
      simp only [List.map_cons, List.set_cons_succ, others y ne]
      rw [ih distinct found]

/-- Nothing is repeated when repetitions are left out. -/
lemma nodup_eraseDups [BEq α] [LawfulBEq α] (xs : List α) : xs.eraseDups.Nodup := by
  induction len : xs.length using Nat.strongRecOn generalizing xs with
  | _ n ih =>
    cases xs with
    | nil => exact List.nodup_nil
    | cons x xs =>
      rw [List.eraseDups_cons, List.nodup_cons, List.mem_eraseDups]
      have shorter := List.length_filter_le (fun y => !y == x) xs
      exact ⟨by simp, ih _ (by rw [← len, List.length_cons]; omega) _ rfl⟩

/-- What the search from the back finds is a member and has the key. -/
lemma of_find?_reverse [DecidableEq κ] {f : α → κ} {xs : List α} {x : α} {k : κ}
    (found : xs.reverse.find? (fun y => decide (f y = k)) = some x) : x ∈ xs ∧ f x = k := by
  have mem := List.mem_of_find?_eq_some found
  have key := List.find?_some found
  exact ⟨List.mem_reverse.1 mem, of_decide_eq_true key⟩

/-- Among members with distinct keys the search from the back finds the one of a key. -/
lemma find?_reverse_of_nodup [DecidableEq κ] {f : α → κ} {xs : List α} {x : α}
    (nd : (xs.map f).Nodup) (mem : x ∈ xs) :
    xs.reverse.find? (fun y => decide (f y = f x)) = some x := by
  obtain ⟨y, found⟩ : ∃ y, xs.reverse.find? (fun y => decide (f y = f x)) = some y := by
    apply Option.isSome_iff_exists.1
    exact List.find?_isSome.2 ⟨x, List.mem_reverse.2 mem, by simp⟩
  obtain ⟨memy, key⟩ := of_find?_reverse found
  rw [found, List.inj_on_of_nodup_map nd memy mem key]

end ImpSSA
