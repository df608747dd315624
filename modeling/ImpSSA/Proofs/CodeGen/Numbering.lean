import Mathlib.Data.List.Intervals
import Mathlib.Data.List.Perm.Basic
import ImpSSA.Proofs.Lists
import ImpSSA.Proofs.CodeGen.Emission

/-!
# The numbering of generated code

Registers and labels are numbered together without gaps, and so are the items without a result:
`Numbered n v n' v' es` says that the registers and labels of `es` are exactly the numbers from `n`
to `n'`, each used once, and that the other items are numbered from `v` to `v'` in order. Hence
labels and identifiers are distinct (`Numbered.labels` and `Numbered.ids`).
-/

namespace ImpSSA
open IR

/-- The keys numbered from `n` to `n'`. -/
def anons (n n' : Nat) : List Key := (List.Ico n n').map fun k : Nat => .anon k

/-- The register or label that an element defines. -/
def IR.Elem.number? : Elem → Option Key
  | .label k => some k
  | .instr i _ | .term i _ => i.register?
  | .foreign => none

/-- The number of an item without a result. -/
def IR.InstrId.number? : InstrId → Option Int
  | .void v => some v
  | .result _ => none

section
variable (v l l' : Nat) (w : Value)

/-- A jump is identified by a number of its own kind. -/
@[simp] lemma id?_jump : (jump v l).id? = some (.void v) := rfl

/-- A jump takes no number of registers and labels. -/
@[simp] lemma number?_jump : (jump v l).number? = none := rfl

/-- A jump is no label. -/
@[simp] lemma label?_jump : (jump v l).label? = none := rfl

/-- A fork is identified by a number of its own kind. -/
@[simp] lemma id?_fork : (fork v w l l').id? = some (.void v) := rfl

/-- A fork takes no number of registers and labels. -/
@[simp] lemma number?_fork : (fork v w l l').number? = none := rfl

/-- A fork is no label. -/
@[simp] lemma label?_fork : (fork v w l l').label? = none := rfl

/-- A label is not an item. -/
@[simp] lemma id?_mark : (mark l).id? = none := rfl

/-- A label has a number. -/
@[simp] lemma number?_mark : (mark l).number? = some (.anon l) := rfl

/-- A label marks the start of a block. -/
@[simp] lemma label?_mark : (mark l).label? = some (.anon l) := rfl

end

/-- Labels are numbered. -/
lemma number?_of_label? (e : Elem) (k : Key) (h : e.label? = some k) : e.number? = some k := by
  cases e with
  | label => exact h
  | _ => cases h

/-- Registers and labels are those from `n` to `n'`, other items those from `v` to `v'`. -/
structure Numbered (n v n' v' : Nat) (es : List Elem) : Prop where
  le : n ≤ n'
  le_void : v ≤ v'
  numbers : (es.filterMap Elem.number?).Perm (anons n n')
  voids : (es.filterMap Elem.id?).filterMap InstrId.number? = (List.Ico v v').map Int.ofNat

/-- Numbers follow each other without a gap. -/
lemma anons_append {n m n' : Nat} (h : n ≤ m) (h' : m ≤ n') :
    anons n m ++ anons m n' = anons n n' := by
  rw [anons, anons, ← List.map_append, List.Ico.append_consecutive h h', anons]

/-- Between a number and itself there is none. -/
lemma anons_self (n : Nat) : anons n n = [] := by
  rw [anons, List.Ico.self_empty, List.map_nil]

/-- Between a number and the next there is just the first. -/
lemma anons_succ (n : Nat) : anons n (n + 1) = [.anon n] := by
  rw [anons, List.Ico.succ_singleton, List.map_singleton]

/-- The first number comes before the others. -/
lemma anons_cons {n n' : Nat} (h : n < n') : anons n n' = .anon n :: anons (n + 1) n' := by
  rw [anons, List.Ico.eq_cons h, List.map_cons, anons]

/-- Numbers are distinct. -/
lemma nodup_anons (n n' : Nat) : (anons n n').Nodup :=
  List.Nodup.map (fun _ _ eq => Int.ofNat.inj (Key.anon.inj eq)) (List.Ico.nodup n n')

/-- Identifiers with distinct registers and distinct numbers are distinct. -/
lemma nodup_of_filterMap {ids : List InstrId} (registers : (ids.filterMap InstrId.register?).Nodup)
    (voids : (ids.filterMap InstrId.number?).Nodup) : ids.Nodup := by
  induction ids with
  | nil => exact .nil
  | cons i ids ih =>
    refine List.nodup_cons.2 ?_
    cases i with
    | result k =>
      simp only [List.filterMap_cons, InstrId.register?, List.nodup_cons] at registers
      exact ⟨fun mem => registers.1 (List.mem_filterMap.2 ⟨_, mem, rfl⟩), ih registers.2 voids⟩
    | void v =>
      simp only [List.filterMap_cons, InstrId.number?, List.nodup_cons] at voids
      exact ⟨fun mem => voids.1 (List.mem_filterMap.2 ⟨_, mem, rfl⟩), ih registers voids.2⟩

namespace Numbered
variable {n n₁ n₂ v v₁ v₂ : Nat} {es es' : List Elem}

/-- An empty stream takes no numbers. -/
lemma nil : Numbered n v n v [] :=
  ⟨le_rfl, le_rfl, by simp [anons_self], by simp⟩

/-- Streams numbered one after the other are numbered together. -/
lemma append (h : Numbered n v n₁ v₁ es) (h' : Numbered n₁ v₁ n₂ v₂ es') :
    Numbered n v n₂ v₂ (es ++ es') where
  le := h.le.trans h'.le
  le_void := h.le_void.trans h'.le_void
  numbers := by
    rw [List.filterMap_append, ← anons_append h.le h'.le]
    exact h.numbers.append h'.numbers
  voids := by
    rw [List.filterMap_append, List.filterMap_append, h.voids, h'.voids, ← List.map_append,
      List.Ico.append_consecutive h.le_void h'.le_void]

/-- An item without a result takes the next number. -/
lemma void {e : Elem} (id : e.id? = some (.void v)) (number : e.number? = none) :
    Numbered n v n (v + 1) [e] := by
  refine ⟨le_rfl, v.le_succ, ?_, ?_⟩
  · simp [number, anons_self]
  · simp [id, InstrId.number?, List.Ico.succ_singleton]

/-- An item with a result takes the next register. -/
lemma result {x : Item} : Numbered n v (n + 1) v [.instr (.result (.anon n)) x] := by
  refine ⟨n.le_succ, le_rfl, ?_, ?_⟩
  · simp [Elem.number?, InstrId.register?, anons_succ]
  · simp [Elem.id?, InstrId.number?]

/-- The three labels in front of a stream may be placed anywhere in it. -/
lemma place_labels (h : Numbered (n + 3) v n₁ v₁ es)
    (ids : es'.filterMap Elem.id? = es.filterMap Elem.id?)
    (numbers : (es'.filterMap Elem.number?).Perm
      (.anon n :: .anon (n + 1 : Nat) :: .anon (n + 2 : Nat) :: es.filterMap Elem.number?)) :
    Numbered n v n₁ v₁ es' where
  le := by
    have := h.le
    omega
  le_void := h.le_void
  numbers := by
    have le := h.le
    rw [anons_cons (by omega), anons_cons (by omega), anons_cons (by omega)]
    exact numbers.trans (((h.numbers.cons _).cons _).cons _)
  voids := by rw [ids, h.voids]

/-- Labels of numbered elements are distinct. -/
lemma labels (h : Numbered n v n₁ v₁ es) : (es.filterMap Elem.label?).Nodup := by
  have numbers := h.numbers.nodup_iff.2 (nodup_anons n n₁)
  exact numbers.sublist (filterMap_sublist number?_of_label? es)

/-- Identifiers of numbered elements are distinct. -/
lemma ids (h : Numbered n v n₁ v₁ es) : (es.filterMap Elem.id?).Nodup := by
  have numbers := h.numbers.nodup_iff.2 (nodup_anons n n₁)
  refine nodup_of_filterMap ?_ ?_
  · rw [List.filterMap_filterMap]
    refine numbers.sublist (filterMap_sublist ?_ es)
    intro e k eq
    cases e with
    | instr | term => exact eq
    | _ => cases eq
  · rw [h.voids]
    exact List.Nodup.map (fun _ _ eq => Int.ofNat.inj eq) (List.Ico.nodup v v₁)

end Numbered

section
variable {ctx : Context} {n n' v v' : Nat}

/-- The code of an arithmetic expression is numbered without gaps. -/
lemma ArithCode.numbered {e code w} (h : ArithCode ctx n e code w n') :
    Numbered n v n' v (instrs code) := by
  induction h with
  | num => exact .nil
  | var => exact .result
  | arith _ _ ihl ihr =>
    rw [instrs_append, instrs_append]
    exact ihl.append (ihr.append .result)

/-- The code of a boolean expression is numbered without gaps. -/
lemma BoolCode.numbered {b code w} (h : BoolCode ctx n b code w n') :
    Numbered n v n' v (instrs code) := by
  induction h with
  | bool => exact .nil
  | cmp l r =>
    rw [instrs_append, instrs_append]
    exact l.numbered.append (r.numbered.append .result)
  | not _ ih =>
    rw [instrs_append]
    exact ih.append .result
  | and _ _ ihl ihr =>
    rw [instrs_append, instrs_append]
    exact ihl.append (ihr.append .result)

/-- A command takes its numbers without gaps, although it places labels out of order. -/
lemma CommandCode.numbered {c es} (h : CommandCode ctx n v c es n' v') :
    Numbered n v n' v' es := by
  induction h with
  | skip => exact .nil
  | assign code => exact code.numbered.append (.void rfl rfl)
  | seq _ _ ihc ihd => exact ihc.append ihd
  | @cond n n₁ n₂ n₃ v v₁ v₂ b c d code w cs ds test _ _ ihc ihd =>
    have whole := (test.numbered (v := v)).append <|
      (Numbered.void (e := fork v w n (n + 1)) rfl rfl).append <| ihc.append <|
      (Numbered.void (e := jump v₁ (n + 2)) rfl rfl).append <| ihd.append <|
      Numbered.void (e := jump v₂ (n + 2)) rfl rfl
    refine whole.place_labels ?_ ?_
    · simp [List.filterMap_cons]
    -- labels have the first numbers but stand behind the condition, so only the counts agree
    · refine List.perm_iff_count.2 fun k => ?_
      simp only [List.filterMap_append, List.filterMap_cons, List.filterMap_nil, number?_fork,
        number?_jump, number?_mark, List.cons_append, List.nil_append, List.count_append,
        List.count_cons, List.count_nil]
      omega
  | @loop n n₁ n₂ v v₁ b c code w cs test _ ih =>
    have whole := (Numbered.void (e := jump v n) rfl rfl).append <|
      test.numbered.append <| (Numbered.void (e := fork (v + 1) w (n + 1) (n + 2)) rfl rfl).append <|
      ih.append <| Numbered.void (e := jump v₁ n) rfl rfl
    refine whole.place_labels ?_ ?_
    · simp [List.filterMap_cons]
    · refine List.perm_iff_count.2 fun k => ?_
      simp only [List.filterMap_append, List.filterMap_cons, List.filterMap_nil, number?_fork,
        number?_jump, number?_mark, List.cons_append, List.nil_append, List.count_append,
        List.count_cons, List.count_nil]
      omega

/-- Storage takes two numbers for each name, one of each kind. -/
lemma storage_numbered (xs : List String) :
    Numbered n v (n + xs.length) (v + xs.length) (instrs (storageCode n v xs)) := by
  induction xs with
  | nil => exact .nil
  | cons x xs ih =>
    rw [storageCode, instrs_append]
    exact ih.append (Numbered.result.append (.void rfl rfl))

/-- The code that prints names is numbered without gaps. -/
lemma PrintsCode.numbered {xs code} (h : PrintsCode ctx n v xs code n' v') :
    Numbered n v n' v' (instrs code) := by
  induction h with
  | nil => exact .nil
  | cons _ _ ih => exact Numbered.result.append ((Numbered.void rfl rfl).append ih)

end

end ImpSSA
