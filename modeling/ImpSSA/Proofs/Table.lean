import Mathlib.Tactic.Lemma
import Mathlib.Data.List.Basic
import ImpSSA.Node.Basic

/-!
# Facts about tables

A table made of a list binds what the list binds, and its keys are distinct. Hence sorting names
keeps exactly the names, each once. Made of its own entries it is the table again (`ofList_entries`).
-/

namespace ImpSSA

namespace Table
variable {κ α : Type} [Ord κ] [Std.TransOrd κ] [Std.LawfulEqOrd κ]

/-- A binding of a table that was built up is one that was put in, or an earlier one. -/
lemma get?_foldl_insert [DecidableEq κ] {l : List (κ × α)} {t : Table κ α} {k : κ} {v : α}
    (h : (l.foldl (fun t p => t.insert p.1 p.2) t).get? k = some v) :
    (k, v) ∈ l ∨ t.get? k = some v := by
  induction l generalizing t with
  | nil => exact .inr h
  | cons p l ih =>
    rcases ih h with mem | old
    · exact .inl (List.mem_cons_of_mem _ mem)
    · rw [get?_insert] at old
      split at old
      · rename_i eq
        cases old
        exact .inl (by rw [eq]; exact List.mem_cons_self)
      · exact .inr old

/-- A table made of a list binds only what the list binds. -/
lemma mem_of_get?_ofList [DecidableEq κ] {l : List (κ × α)} {k : κ} {v : α}
    (h : (ofList l).get? k = some v) : (k, v) ∈ l := by
  rcases get?_foldl_insert h with mem | old
  · exact mem
  · cases old

/-- A table made of keys with their values binds every one of the keys to its value. -/
lemma get?_ofList_map [DecidableEq κ] {f : κ → α} {ks : List κ} {k : κ} (mem : k ∈ ks) :
    (ofList (ks.map fun k => (k, f k))).get? k = some (f k) := by
  have general : ∀ t : Table κ α, k ∈ ks ∨ t.get? k = some (f k) →
      ((ks.map fun k => (k, f k)).foldl (fun t p => t.insert p.1 p.2) t).get? k = some (f k) := by
    clear mem
    induction ks with
    | nil => exact fun t h => h.resolve_left List.not_mem_nil
    | cons j ks ih =>
      intro t h
      apply ih
      rw [get?_insert]
      split
      · rename_i eq
        exact .inr (by rw [eq])
      · rename_i ne
        exact h.imp_left (List.mem_of_ne_of_mem ne)
  exact general ∅ (.inl mem)

omit [Std.TransOrd κ] in
/-- The keys after a binding are the old ones and the new one. -/
lemma mem_keys_place {k j : κ} {v : α} {l : List (κ × α)} :
    j ∈ (place k v l).map (·.1) ↔ j = k ∨ j ∈ l.map (·.1) := by
  induction l with
  | nil => simp [place]
  | cons p l ih =>
    obtain ⟨k', v'⟩ := p
    simp only [place]
    split
    · simp
    · rename_i eq
      obtain rfl : k = k' := Std.LawfulEqCmp.eq_of_compare eq
      simp
    · simp only [List.map_cons, List.mem_cons, ih]
      exact or_left_comm

/-- The keys of a table made of a list are those of the list. -/
lemma mem_keys_ofList {l : List (κ × α)} {k : κ} : k ∈ (ofList l).keys ↔ k ∈ l.map (·.1) := by
  have general : ∀ t : Table κ α,
      k ∈ (l.foldl (fun t p => t.insert p.1 p.2) t).keys ↔ k ∈ l.map (·.1) ∨ k ∈ t.keys := by
    induction l with
    | nil => simp
    | cons p l ih =>
      intro t
      rw [List.foldl_cons, ih, List.map_cons, List.mem_cons, keys, insert, mem_keys_place]
      exact or_left_comm.trans or_assoc.symm
  rw [ofList, general]
  exact or_iff_left List.not_mem_nil

omit [Std.TransOrd κ] in
/-- The keys of a table are distinct. -/
lemma nodup_keys (t : Table κ α) : t.keys.Nodup := by
  refine List.Pairwise.map _ ?_ t.ascending
  intro p q lt eq
  rw [eq, Std.compare_self] at lt
  cases lt

omit [Std.LawfulEqOrd κ] in
/-- A key behind all others is bound at the end. -/
lemma place_last {k : κ} {v : α} {l : List (κ × α)}
    (behind : ∀ p ∈ l, compare p.1 k = .lt) : place k v l = l ++ [(k, v)] := by
  induction l with
  | nil => rfl
  | cons p l ih =>
    obtain ⟨first, rest⟩ := List.forall_mem_cons.1 behind
    have gt : compare k p.1 = .gt := Std.OrientedCmp.gt_of_lt first
    rw [place, gt, ih rest, List.cons_append]

/-- Entries put in one after the other, in ascending order, stand as they were put in. -/
lemma entries_foldl_insert {l : List (κ × α)} {t : Table κ α}
    (ascending : (t.entries ++ l).Pairwise fun p q => compare p.1 q.1 = .lt) :
    (l.foldl (fun t p => t.insert p.1 p.2) t).entries = t.entries ++ l := by
  induction l generalizing t with
  | nil => exact (List.append_nil _).symm
  | cons p l ih =>
    have behind : ∀ q ∈ t.entries, compare q.1 p.1 = .lt := fun q mem =>
      (List.pairwise_append.1 ascending).2.2 q mem p List.mem_cons_self
    have entries : (t.insert p.1 p.2).entries = t.entries ++ [p] := place_last behind
    rw [List.foldl_cons, ih (by rw [entries, List.append_assoc]; exact ascending), entries,
      List.append_assoc, List.singleton_append]

/-- A table is made of its entries. -/
lemma ofList_entries (t : Table κ α) : ofList t.entries = t := by
  have entries : (ofList t.entries).entries = t.entries := entries_foldl_insert t.ascending
  exact ext_get? fun k => by rw [get?, get?, entries]

end Table

/-- The value of a variable after an assignment. -/
lemma value_insert (σ : Store) (x y : String) (n : Int) :
    Store.value (σ.insert x n) y = if y = x then n else σ.value y := by
  rw [Store.value, Table.get?_insert]
  split <;> rfl

namespace Node

/-- Sorting keeps exactly the names. -/
lemma mem_sortNames {x : String} {xs : List String} : x ∈ sortNames xs ↔ x ∈ xs := by
  rw [sortNames, Table.mem_keys_ofList, List.map_map]
  simp [Function.comp_def]

/-- Lists of the same names are sorted to the same list. -/
lemma sortNames_congr {xs ys : List String} (same : ∀ x, x ∈ xs ↔ x ∈ ys) : sortNames xs = sortNames ys := by
  have get? : ∀ (zs : List String) (x : String),
      (Table.ofList (zs.map (·, ()))).get? x = if x ∈ zs then some () else none := by
    intro zs x
    split
    · rename_i mem
      exact Table.get?_ofList_map mem
    · rename_i new
      refine Option.eq_none_iff_forall_ne_some.2 fun v found => new ?_
      simpa using Table.mem_of_get?_ofList found
  have tables : Table.ofList (xs.map (·, ())) = Table.ofList (ys.map (·, ())) :=
    Table.ext_get? fun x => by rw [get?, get?, if_congr (same x) rfl rfl]
  rw [sortNames, sortNames, tables]

/-- Sorted names are distinct. -/
lemma nodup_sortNames (xs : List String) : (sortNames xs).Nodup :=
  Table.nodup_keys _

end Node

end ImpSSA
