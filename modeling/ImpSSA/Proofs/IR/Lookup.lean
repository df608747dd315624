import ImpSSA.Machine.Step
import ImpSSA.Proofs.Lists
import ImpSSA.Proofs.IR.WellFormed

/-!
# Looking up functions, blocks and items

Look-ups find members, and where keys are distinct they find the member of the key. Inside of a
block an identifier stands for the terminator or for the last item of the code that carries it;
`Block.item?_append` and `Block.nextId?_append` say what it stands for, and what comes after it, at
a place of a block with distinct identifiers.
-/

namespace ImpSSA.IR

/-- The definition that is found belongs to the program and has the name. -/
lemma Program.mem_of_definition? {p : Program} {name : Key} {d : Definition}
    (found : p.definition? name = some d) : d ∈ p.definitions ∧ d.name = name :=
  of_find?_reverse found

/-- The block that is found belongs to the definition and has the label. -/
lemma Definition.mem_of_block? {d : Definition} {label : Key} {b : Block}
    (found : d.block? label = some b) : b ∈ d.blocks ∧ b.label = label :=
  of_find?_reverse found

/-- The definitions of a program are those among its entities. -/
lemma Program.mem_definitions {p : Program} {d : Definition} :
    d ∈ p.definitions ↔ .define d ∈ p.entities := by
  rw [definitions, List.mem_filterMap]
  constructor
  · intro ⟨e, mem, eq⟩
    cases e with
    | declare _ => cases eq
    | define d' =>
      cases eq
      exact mem
  · intro mem
    exact ⟨_, mem, rfl⟩

/-- Definitions have distinct names if all members of the program do. -/
lemma Program.nodup_definitions {p : Program} (nd : (p.entities.map Entity.name).Nodup) :
    (p.definitions.map (·.name)).Nodup := by
  refine List.Nodup.sublist ?_ nd
  rw [definitions]
  induction p.entities with
  | nil => exact .slnil
  | cons e es ih =>
    cases e with
    | declare d => exact .cons _ ih
    | define d => exact .cons_cons _ ih

/-- A function of the program is defined or declared. -/
lemma Program.defined_or_declared {p : Program} {name : Key} (known : p.knows name = true) :
    (∃ d, p.definition? name = some d) ∨ p.declares name = true := by
  obtain ⟨e, mem, eq⟩ := List.any_eq_true.1 known
  have eq := of_decide_eq_true eq
  cases e with
  | declare d =>
    refine .inr (List.any_eq_true.2 ⟨d, ?_, decide_eq_true eq⟩)
    exact List.mem_filterMap.2 ⟨_, mem, rfl⟩
  | define d =>
    refine .inl (Option.isSome_iff_exists.1 (List.find?_isSome.2 ⟨d, ?_, decide_eq_true eq⟩))
    exact List.mem_reverse.2 (mem_definitions.2 mem)

/-- In a well-formed program the look-up finds every definition. -/
lemma Program.WellFormed.definition?_eq {p : Program} {d : Definition} (wf : p.WellFormed)
    (mem : d ∈ p.definitions) : p.definition? d.name = some d :=
  find?_reverse_of_nodup (Program.nodup_definitions wf.names) mem

/-- In a definition with distinct labels the look-up finds every block. -/
lemma Definition.block?_eq {d : Definition} {b : Block} (nd : d.labels.Nodup) (mem : b ∈ d.blocks) :
    d.block? b.label = some b :=
  find?_reverse_of_nodup nd mem

/-- In a well-formed program the look-up finds every block of every definition. -/
lemma Program.WellFormed.block?_eq {p : Program} {d : Definition} {b : Block} (wf : p.WellFormed)
    (memd : d ∈ p.definitions) (memb : b ∈ d.blocks) : p.block? d.name b.label = some b := by
  rw [Program.block?, wf.definition?_eq memd]
  exact Definition.block?_eq (wf.definitions d memd).labels memb

/-- The index that is found is that of an item with the identifier. -/
lemma getElem?_of_indexOfLast {i : InstrId} {code : List (InstrId × Item)} {n : Nat}
    (h : indexOfLast i code = some n) : ∃ item, code[n]? = some (i, item) := by
  induction code generalizing n with
  | nil => cases h
  | cons x code ih =>
    obtain ⟨j, item⟩ := x
    rw [indexOfLast] at h
    split at h
    · rename_i k found
      cases h
      exact ih found
    · split at h
      · rename_i eq
        cases h
        exact ⟨item, by rw [eq]; rfl⟩
      · cases h

/-- An identifier that does not occur has no index. -/
lemma indexOfLast_eq_none {i : InstrId} {code : List (InstrId × Item)}
    (h : i ∉ code.map (·.1)) : indexOfLast i code = none := by
  induction code with
  | nil => rfl
  | cons x code ih =>
    rw [List.map_cons, List.mem_cons, not_or] at h
    rw [indexOfLast, ih h.2]
    exact if_neg h.1

/-- The index of an identifier is that of its last occurrence. -/
lemma indexOfLast_append {i : InstrId} {x : Item} {pre post : List (InstrId × Item)}
    (h : i ∉ post.map (·.1)) : indexOfLast i (pre ++ (i, x) :: post) = some pre.length := by
  induction pre with
  | nil =>
    rw [List.nil_append, indexOfLast, indexOfLast_eq_none h]
    exact if_pos rfl
  | cons y pre ih =>
    rw [List.cons_append, indexOfLast, ih]
    rfl

/-- An identifier that occurs has an index. -/
lemma indexOfLast_of_mem {i : InstrId} {code : List (InstrId × Item)}
    (h : i ∈ code.map (·.1)) : ∃ n, indexOfLast i code = some n := by
  induction code with
  | nil => cases h
  | cons x code ih =>
    obtain ⟨j, item⟩ := x
    by_cases mem : i ∈ code.map (·.1)
    · obtain ⟨n, found⟩ := ih mem
      exact ⟨n + 1, by rw [indexOfLast, found]⟩
    · obtain rfl : i = j := (List.mem_cons.1 h).resolve_right mem
      have first : indexOfLast i ([] ++ (i, item) :: code) = some 0 := indexOfLast_append mem
      exact ⟨0, first⟩

/-- The item that is found is the terminator or one of the code. -/
lemma Block.mem_of_item? {b : Block} {i : InstrId} {item : Item} (h : b.item? i = some item) :
    b.term = (i, item) ∨ (i, item) ∈ b.code := by
  rw [item?] at h
  split at h
  · rename_i eq
    cases h
    exact .inl (by rw [eq])
  · obtain ⟨⟨j, y⟩, found, rfl⟩ := Option.map_eq_some_iff.1 h
    obtain ⟨n, index, get⟩ := Option.bind_eq_some_iff.1 found
    obtain ⟨y', get'⟩ := getElem?_of_indexOfLast index
    rw [get] at get'
    cases get'
    exact .inr (List.mem_of_getElem? get)

/-- Every identifier of a block stands for an item. -/
lemma Block.item?_of_mem {b : Block} {i : InstrId} (h : i ∈ b.ids) :
    ∃ item, b.item? i = some item := by
  by_cases eq : i = b.term.1
  · exact ⟨b.term.2, if_pos eq⟩
  · have mem : i ∈ b.code.map (·.1) := by
      simpa [ids, items, eq] using h
    obtain ⟨n, index⟩ := indexOfLast_of_mem mem
    obtain ⟨item, get⟩ := getElem?_of_indexOfLast index
    exact ⟨item, by rw [item?, if_neg eq, index, Option.bind_some, get]; rfl⟩

/-- Every identifier of the code has a successor in the block. -/
lemma Block.nextId?_of_mem {b : Block} {i : InstrId} (h : i ∈ b.code.map (·.1)) :
    ∃ j ∈ b.ids, b.nextId? i = some j := by
  obtain ⟨n, index⟩ := indexOfLast_of_mem h
  cases get : b.code[n + 1]? with
  | none =>
    refine ⟨b.term.1, by simp [ids, items], ?_⟩
    rw [nextId?, index, Option.map_some, get]
  | some x =>
    obtain ⟨j, item⟩ := x
    have mem : (j, item) ∈ b.code := List.mem_of_getElem? get
    refine ⟨j, List.mem_map.2 ⟨_, List.mem_append_left _ mem, rfl⟩, ?_⟩
    rw [nextId?, index, Option.map_some, get]

/-- A place of a block is the terminator or has it at the end of what follows. -/
lemma Block.split_items {b : Block} {x : InstrId × Item} {pre post : List (InstrId × Item)}
    (eq : b.items = pre ++ x :: post) :
    (b.code = pre ∧ b.term = x ∧ post = []) ∨
      ∃ post', b.code = pre ++ x :: post' ∧ post = post' ++ [b.term] := by
  -- the terminator is the last of the items, so it is what `post` ends in, if that is not empty
  rcases List.eq_nil_or_concat post with rfl | ⟨post', y, rfl⟩
  · obtain ⟨code, term⟩ := List.append_inj' eq rfl
    cases term
    exact .inl ⟨code, rfl, rfl⟩
  · rw [List.concat_eq_append] at eq ⊢
    rw [items, ← List.cons_append, ← List.append_assoc] at eq
    obtain ⟨code, term⟩ := List.append_inj' eq rfl
    cases term
    exact .inr ⟨post', code, rfl⟩

/-- The item at a place of a block with distinct identifiers. -/
lemma Block.item?_append {b : Block} {i : InstrId} {x : Item} {pre post : List (InstrId × Item)}
    (nd : b.ids.Nodup) (eq : b.items = pre ++ (i, x) :: post) : b.item? i = some x := by
  rcases split_items eq with ⟨_, term, _⟩ | ⟨post', code, rfl⟩
  · rw [item?, term]
    exact if_pos rfl
  · rw [ids, eq, List.map_append, List.map_cons, List.map_append] at nd
    obtain ⟨notin, _⟩ := List.nodup_cons.1 (List.nodup_append.1 nd).2.1
    simp only [List.mem_append, List.map_cons, List.map_nil, List.mem_singleton, not_or] at notin
    rw [item?, if_neg notin.2, code, indexOfLast_append notin.1, Option.bind_some,
      List.getElem?_append_right (Nat.le_refl _), Nat.sub_self]
    rfl

/-- What comes after a place of a block with distinct identifiers. -/
lemma Block.nextId?_append {b : Block} {i j : InstrId} {x y : Item}
    {pre post : List (InstrId × Item)} (nd : b.ids.Nodup)
    (eq : b.items = pre ++ (i, x) :: (j, y) :: post) : b.nextId? i = some j := by
  rcases split_items eq with ⟨_, _, last⟩ | ⟨post', code, last⟩
  · cases last
  · rw [ids, eq, List.map_append, List.map_cons, last, List.map_append] at nd
    obtain ⟨notin, _⟩ := List.nodup_cons.1 (List.nodup_append.1 nd).2.1
    rw [List.mem_append, not_or] at notin
    rw [nextId?, code, indexOfLast_append notin.1, Option.map_some,
      List.getElem?_append_right (Nat.le_add_right _ 1), Nat.add_sub_cancel_left]
    cases post' with
    | nil =>
      obtain ⟨term, _⟩ := List.cons.inj last
      rw [← term]
      rfl
    | cons z post' =>
      cases last
      rfl

end ImpSSA.IR
