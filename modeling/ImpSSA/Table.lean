/-!
# Tables

A finite map kept as an association list in ascending key order, so that two tables with the same
bindings are equal (`Table.ext_get?`) and reading one out is already sorted. `get?_insert` is the
law of the only operation that changes one.
-/

namespace ImpSSA

/-- A finite map from `κ` to `α`, its keys strictly ascending. -/
structure Table (κ α : Type) [Ord κ] where
  /-- The bindings in key order. -/
  entries : List (κ × α)
  /-- Every key comes before all later ones. -/
  ascending : entries.Pairwise fun p q => compare p.1 q.1 = .lt

namespace Table

variable {κ α : Type} [Ord κ]

/-- The value bound to `k` in an association list. -/
def find? (k : κ) : List (κ × α) → Option α
  | [] => none
  | (k', v) :: rest => if compare k k' = .eq then some v else find? k rest

/-- Binds `k` in an ascending association list, at its place in the order. -/
def place (k : κ) (v : α) : List (κ × α) → List (κ × α)
  | [] => [(k, v)]
  | (k', v') :: rest =>
    match compare k k' with
    | .lt => (k, v) :: (k', v') :: rest
    | .eq => (k, v) :: rest
    | .gt => (k', v') :: place k v rest

/-- A binding after one was placed is that one or an old one. -/
theorem mem_place {k : κ} {v : α} {l : List (κ × α)} {p : κ × α} (h : p ∈ place k v l) :
    p = (k, v) ∨ p ∈ l := by
  induction l with
  | nil => simpa [place] using h
  | cons q rest ih =>
    obtain ⟨k', v'⟩ := q
    simp only [place] at h
    split at h
    · simpa using h
    · rcases List.mem_cons.1 h with h | h
      · exact .inl h
      · exact .inr (List.mem_cons_of_mem _ h)
    · rcases List.mem_cons.1 h with h | h
      · exact .inr (h ▸ List.mem_cons_self)
      · exact (ih h).imp id (List.mem_cons_of_mem _)

variable [Std.TransOrd κ] [Std.LawfulEqOrd κ]

/-- Placing a binding keeps the keys ascending. -/
theorem pairwise_place (k : κ) (v : α) {l : List (κ × α)}
    (h : l.Pairwise fun p q => compare p.1 q.1 = .lt) :
    (place k v l).Pairwise fun p q => compare p.1 q.1 = .lt := by
  induction l with
  | nil => simp [place]
  | cons q rest ih =>
    obtain ⟨k', v'⟩ := q
    obtain ⟨hhead, htail⟩ := List.pairwise_cons.1 h
    simp only [place]
    split
    · rename_i hlt
      refine List.pairwise_cons.2 ⟨fun p hp => ?_, h⟩
      rcases List.mem_cons.1 hp with rfl | hp
      · exact hlt
      · exact Std.TransCmp.lt_trans hlt (hhead p hp)
    · rename_i heq
      have hk : k = k' := Std.LawfulEqCmp.eq_of_compare heq
      exact List.pairwise_cons.2 ⟨fun p hp => hk ▸ hhead p hp, htail⟩
    · rename_i hgt
      refine List.pairwise_cons.2 ⟨fun p hp => ?_, ih htail⟩
      rcases mem_place hp with rfl | hp
      · exact Std.OrientedCmp.lt_of_gt hgt
      · exact hhead p hp

/-- The table without bindings. -/
def empty : Table κ α := ⟨[], .nil⟩

instance : EmptyCollection (Table κ α) := ⟨empty⟩

/-- The value bound to `k`. -/
def get? (t : Table κ α) (k : κ) : Option α := find? k t.entries

/-- Whether `k` is bound. -/
def contains (t : Table κ α) (k : κ) : Bool := (t.get? k).isSome

/-- Binds `k` to `v`, in place of an earlier binding. -/
def insert (t : Table κ α) (k : κ) (v : α) : Table κ α :=
  ⟨place k v t.entries, pairwise_place k v t.ascending⟩

/-- The bindings of `l`, later ones first in force. -/
def ofList (l : List (κ × α)) : Table κ α := l.foldl (fun t p => t.insert p.1 p.2) ∅

/-- The keys in ascending order. -/
def keys (t : Table κ α) : List κ := t.entries.map (·.1)

omit [Std.TransOrd κ] in
/-- After a binding was placed its key has the new value, and every other key the old one. -/
theorem find?_place [DecidableEq κ] (k k' : κ) (v : α) (l : List (κ × α)) :
    find? k' (place k v l) = if k' = k then some v else find? k' l := by
  induction l with
  | nil => simp [place, find?, Std.LawfulEqCmp.compare_eq_iff_eq]
  | cons q rest ih =>
    obtain ⟨k₀, v₀⟩ := q
    simp only [place]
    split
    · simp [find?, Std.LawfulEqCmp.compare_eq_iff_eq]
    · rename_i heq
      have hk : k = k₀ := Std.LawfulEqCmp.eq_of_compare heq
      subst hk
      by_cases hk' : k' = k <;> simp [find?, Std.LawfulEqCmp.compare_eq_iff_eq, hk']
    · rename_i hgt
      have hne : k₀ ≠ k := by
        rintro rfl
        simp [Std.ReflCmp.compare_self] at hgt
      by_cases hk' : k' = k₀
      · subst hk'
        simp [find?, hne]
      · simp [find?, Std.LawfulEqCmp.compare_eq_iff_eq, hk', ih]

omit [Std.TransOrd κ] [Std.LawfulEqOrd κ] in
/-- A key before all others is not bound. -/
theorem find?_eq_none {k : κ} {l : List (κ × α)} (h : ∀ p ∈ l, compare k p.1 = .lt) :
    find? k l = none := by
  induction l with
  | nil => rfl
  | cons q rest ih =>
    have hq := h q List.mem_cons_self
    have hrest := ih fun p hp => h p (List.mem_cons_of_mem _ hp)
    simp [find?, hq, hrest]

/-- Ascending lists that bind the same are equal, by induction on both: their first keys agree, since a
lesser one would be bound in one list only. -/
theorem eq_of_find? {l l' : List (κ × α)} (h : l.Pairwise fun p q => compare p.1 q.1 = .lt)
    (h' : l'.Pairwise fun p q => compare p.1 q.1 = .lt)
    (same : ∀ k, find? k l = find? k l') : l = l' := by
  induction l generalizing l' with
  | nil =>
    cases l' with
    | nil => rfl
    | cons q rest => simpa [find?] using same q.1
  | cons p rest ih =>
    cases l' with
    | nil => simpa [find?] using same p.1
    | cons q rest' =>
      obtain ⟨k, v⟩ := p
      obtain ⟨k', v'⟩ := q
      obtain ⟨hhead, htail⟩ := List.pairwise_cons.1 h
      obtain ⟨hhead', htail'⟩ := List.pairwise_cons.1 h'
      have hk : k = k' := by
        cases hc : compare k k' with
        | lt =>
          have none' : find? k ((k', v') :: rest') = none := find?_eq_none fun p hp => by
            rcases List.mem_cons.1 hp with rfl | hp
            · exact hc
            · exact Std.TransCmp.lt_trans hc (hhead' p hp)
          have hs := same k
          rw [none'] at hs
          simp [find?] at hs
        | eq => exact Std.LawfulEqCmp.eq_of_compare hc
        | gt =>
          have hc' : compare k' k = .lt := Std.OrientedCmp.lt_of_gt hc
          have none' : find? k' ((k, v) :: rest) = none := find?_eq_none fun p hp => by
            rcases List.mem_cons.1 hp with rfl | hp
            · exact hc'
            · exact Std.TransCmp.lt_trans hc' (hhead p hp)
          have hs := same k'
          rw [none'] at hs
          simp [find?] at hs
      subst hk
      have hv : v = v' := by simpa [find?] using same k
      subst hv
      congr 1
      refine ih htail htail' fun j => ?_
      by_cases hj : compare j k = .eq
      · have hj' : j = k := Std.LawfulEqCmp.eq_of_compare hj
        subst hj'
        rw [find?_eq_none hhead, find?_eq_none hhead']
      · simpa [find?, hj] using same j

omit [Std.TransOrd κ] [Std.LawfulEqOrd κ] in
/-- The empty table binds nothing. -/
@[simp] theorem get?_empty (k : κ) : (∅ : Table κ α).get? k = none := rfl

/-- What is bound after an insertion: the key to its new value, every other key as before. -/
theorem get?_insert [DecidableEq κ] (t : Table κ α) (k k' : κ) (v : α) :
    (t.insert k v).get? k' = if k' = k then some v else t.get? k' :=
  find?_place k k' v t.entries

/-- A table is determined by what it binds. -/
theorem ext_get? {t t' : Table κ α} (h : ∀ k, t.get? k = t'.get? k) : t = t' := by
  obtain ⟨l, hl⟩ := t
  obtain ⟨l', hl'⟩ := t'
  obtain rfl : l = l' := eq_of_find? hl hl' h
  rfl

end Table

end ImpSSA
