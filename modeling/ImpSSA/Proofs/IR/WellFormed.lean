import Mathlib.Tactic.Tauto
import ImpSSA.IR.Verify
import ImpSSA.Proofs.Control

/-!
# What the verifier accepts

`Program.WellFormed` says what a program needs: distinct names of functions and, for every
definition, blocks, as many parameters as argument types, distinct labels, terminators exactly in
terminator position, identifiers that are distinct across all blocks, branches to labels of its own
and direct calls of functions of the program. `Program.verify_ok_iff` says that the verifier accepts
exactly these programs.

The verifier goes through keys and identifiers with a list of those already seen; `Fresh seen xs` is
what such a walk over `xs` checks.
-/

namespace ImpSSA.IR

/-- The items of a block, the last one in terminator position. -/
def Block.items (b : Block) : List (InstrId × Item) := b.code ++ [b.term]

/-- The identifiers of a block in order. -/
def Block.ids (b : Block) : List InstrId := b.items.map (·.1)

/-- The labels of a definition in order. -/
def Definition.labels (d : Definition) : List Key := d.blocks.map (·.label)

/-- What a block needs inside of a definition with the given labels and a program. -/
structure Block.WellFormed (b : Block) (labels : List Key) (p : Program) : Prop where
  term : b.term.2.isTerm = true
  code : ∀ x ∈ b.code, x.2.isTerm = false
  targets : ∀ {t}, b.term.2 = .term t → ∀ l ∈ t.targets, l ∈ labels
  calls : ∀ x ∈ b.code, ∀ {k}, x.2.callee? = some k → p.knows k = true

/-- What a definition needs inside of a program. -/
structure Definition.WellFormed (d : Definition) (p : Program) : Prop where
  nonempty : d.blocks ≠ []
  params : d.params.length = d.type.args.length
  labels : d.labels.Nodup
  ids : (d.blocks.flatMap Block.ids).Nodup
  blocks : ∀ b ∈ d.blocks, b.WellFormed d.labels p

/-- What a program needs. -/
structure Program.WellFormed (p : Program) : Prop where
  names : (p.entities.map Entity.name).Nodup
  definitions : ∀ d ∈ p.definitions, d.WellFormed p

/-- The members of a list are distinct and none was seen before. -/
def Fresh {α : Type} (seen xs : List α) : Prop := xs.Nodup ∧ ∀ x ∈ xs, x ∉ seen

section
variable {α : Type} {seen xs ys : List α} {x : α}

/-- An empty list repeats nothing. -/
lemma fresh_nil : Fresh seen [] := ⟨.nil, by simp⟩

/-- A walk sees the first member before it goes on. -/
lemma fresh_cons : Fresh seen (x :: xs) ↔ x ∉ seen ∧ Fresh (x :: seen) xs := by
  simp only [Fresh, List.nodup_cons, List.mem_cons, not_or]
  constructor
  · rintro ⟨⟨notin, nd⟩, new⟩
    exact ⟨new x (.inl rfl), nd, fun y mem => ⟨fun e => notin (e ▸ mem), new y (.inr mem)⟩⟩
  · rintro ⟨new, nd, rest⟩
    refine ⟨⟨fun mem => (rest x mem).1 rfl, nd⟩, ?_⟩
    rintro y (rfl | mem)
    · exact new
    · exact (rest y mem).2

/-- A walk sees the first list before it goes on with the second. -/
lemma fresh_append : Fresh seen (xs ++ ys) ↔ Fresh seen xs ∧ Fresh (xs.reverse ++ seen) ys := by
  induction xs generalizing seen with
  | nil => simp [fresh_nil]
  | cons x xs ih => simp [fresh_cons, ih, and_assoc]

/-- Where nothing was seen before, only repetitions count. -/
lemma fresh_nil_iff : Fresh [] xs ↔ xs.Nodup := by simp [Fresh]

end

/-- A demand passes if it is met. -/
lemma require_ok_iff {ok : Bool} {e : VerifyError} : require ok e = .ok () ↔ ok = true := by
  cases ok <;> simp [require, pure, Except.pure, throw, throwThe, MonadExceptOf.throw]

/-- The walk over keys accepts fresh ones. -/
lemma checkDistinct_ok_iff {err : Key → VerifyError} {seen ks : List Key} :
    checkDistinct err seen ks = .ok () ↔ Fresh seen ks := by
  induction ks generalizing seen with
  | nil => simp [checkDistinct, pure, Except.pure, fresh_nil]
  | cons k ks ih => simp [checkDistinct, bind_unit_eq_ok, require_ok_iff, ih, fresh_cons]

/-- The walk over code accepts instructions with fresh identifiers, which are then seen. -/
lemma checkCode_ok_iff {fn label : Key} {seen seen' : List InstrId} {code : List (InstrId × Item)} :
    checkCode fn label seen code = .ok seen' ↔
      (∀ x ∈ code, x.2.isTerm = false) ∧ Fresh seen (code.map (·.1)) ∧
        (code.map (·.1)).reverse ++ seen = seen' := by
  induction code generalizing seen with
  | nil => simp [checkCode, pure, Except.pure, fresh_nil]
  | cons x code ih =>
    obtain ⟨i, item⟩ := x
    simp only [checkCode, bind_unit_eq_ok, require_ok_iff, ih, List.forall_mem_cons, List.map_cons, fresh_cons,
      List.reverse_cons, List.append_assoc, List.singleton_append, Bool.not_eq_true',
      List.contains_eq_mem, decide_eq_false_iff_not]
    tauto

/-- The check of a block accepts well-formed code with fresh identifiers, which are then seen. -/
lemma Block.check_ok_iff {b : Block} {fn : Key} {labels : List Key} {seen seen' : List InstrId} :
    b.check fn labels seen = .ok seen' ↔
      (∃ t, b.term.2 = .term t ∧ ∀ l ∈ t.targets, l ∈ labels) ∧
        (∀ x ∈ b.code, x.2.isTerm = false) ∧ Fresh seen b.ids ∧ b.ids.reverse ++ seen = seen' := by
  obtain ⟨label, code, i, item⟩ := b
  cases item with
  | instr x => simp [check, throw, throwThe, MonadExceptOf.throw]
  | term t =>
    simp only [ids, items, List.map_append, List.map_cons, List.map_nil, fresh_append, fresh_cons,
      List.reverse_append, List.reverse_singleton, List.cons_append]
    constructor
    · intro ok
      obtain ⟨seen₁, code, ok⟩ := bind_eq_ok.1 ok
      obtain ⟨straight, fresh, rfl⟩ := checkCode_ok_iff.1 code
      obtain ⟨new, ok⟩ := bind_unit_eq_ok.1 ok
      obtain ⟨targets, ok⟩ := bind_unit_eq_ok.1 ok
      cases ok
      refine ⟨⟨t, rfl, fun l mem => ?_⟩, straight, ⟨fresh, ?_, fresh_nil⟩, rfl⟩
      · simpa using require_ok_iff.1 (forM_eq_ok.1 targets l mem)
      · simpa using require_ok_iff.1 new
    · rintro ⟨⟨_, e, targets⟩, straight, ⟨fresh, new, _⟩, rfl⟩
      cases e
      refine bind_eq_ok.2 ⟨_, checkCode_ok_iff.2 ⟨straight, fresh, rfl⟩, ?_⟩
      refine bind_unit_eq_ok.2 ⟨require_ok_iff.2 (by simpa using new), ?_⟩
      refine bind_unit_eq_ok.2 ⟨forM_eq_ok.2 fun l mem => ?_, rfl⟩
      exact require_ok_iff.2 (by simpa using targets l mem)

/-- The walk over blocks accepts well-formed code with fresh identifiers. -/
lemma checkBlocks_ok_iff {fn : Key} {labels : List Key} {seen : List InstrId} {bs : List Block} :
    checkBlocks fn labels seen bs = .ok () ↔
      (∀ b ∈ bs, (∃ t, b.term.2 = .term t ∧ ∀ l ∈ t.targets, l ∈ labels) ∧
        ∀ x ∈ b.code, x.2.isTerm = false) ∧ Fresh seen (bs.flatMap Block.ids) := by
  induction bs generalizing seen with
  | nil => simp [checkBlocks, pure, Except.pure, fresh_nil]
  | cons b bs ih =>
    simp only [checkBlocks, bind_eq_ok, Block.check_ok_iff, ih, List.forall_mem_cons,
      List.flatMap_cons, fresh_append]
    constructor
    · rintro ⟨_, ⟨term, straight, fresh, rfl⟩, blocks, rest⟩
      exact ⟨⟨⟨term, straight⟩, blocks⟩, fresh, rest⟩
    · rintro ⟨⟨⟨term, straight⟩, blocks⟩, fresh, rest⟩
      exact ⟨_, ⟨term, straight, fresh, rfl⟩, blocks, rest⟩

/-- The check of calls accepts direct calls of functions of the program. -/
lemma Block.checkCalls_ok_iff {b : Block} {fn : Key} {p : Program} :
    b.checkCalls fn p = .ok () ↔
      ∀ x ∈ b.code, ∀ {k}, x.2.callee? = some k → p.knows k = true := by
  simp only [checkCalls, forM_eq_ok, require_ok_iff, List.mem_filterMap]
  exact ⟨fun h x mem k callee => h k ⟨x, mem, callee⟩, fun h k ⟨x, mem, callee⟩ => h x mem callee⟩

/-- A terminator whose targets are labels, told in two ways. -/
lemma term_targets_iff {item : Item} {labels : List Key} :
    (∃ t, item = .term t ∧ ∀ l ∈ t.targets, l ∈ labels) ↔
      item.isTerm = true ∧ ∀ {t}, item = .term t → ∀ l ∈ t.targets, l ∈ labels := by
  cases item with
  | instr i => simp [Item.isTerm]
  | term t => simp [Item.isTerm]

/-- The check of a definition inside of a program accepts the well-formed ones. -/
lemma Definition.verify_ok_iff {d : Definition} {p : Program} :
    d.verify (some p) = .ok () ↔ d.WellFormed p := by
  simp only [verify, check, bind_unit_eq_ok, require_ok_iff, checkDistinct_ok_iff, fresh_nil_iff,
    checkBlocks_ok_iff, term_targets_iff, forM_eq_ok, Block.checkCalls_ok_iff]
  constructor
  · rintro ⟨⟨nonempty, params, labels, blocks, ids⟩, calls⟩
    refine ⟨by simpa using nonempty, by simpa using params, labels, ids, fun b mem => ?_⟩
    obtain ⟨⟨term, targets⟩, code⟩ := blocks b mem
    exact ⟨term, code, targets, calls b mem⟩
  · rintro ⟨nonempty, params, labels, ids, blocks⟩
    refine ⟨⟨by simpa using nonempty, by simpa using params, labels, fun b mem => ?_, ids⟩, ?_⟩
    · exact ⟨⟨(blocks b mem).term, (blocks b mem).targets⟩, (blocks b mem).code⟩
    · exact fun b mem => (blocks b mem).calls

/-- The verifier accepts exactly the well-formed programs. -/
lemma Program.verify_ok_iff {p : Program} : p.verify = .ok () ↔ p.WellFormed := by
  simp only [verify, bind_unit_eq_ok, checkDistinct_ok_iff, fresh_nil_iff, forM_eq_ok,
    Definition.verify_ok_iff]
  exact ⟨fun ⟨names, definitions⟩ => ⟨names, definitions⟩, fun ⟨names, definitions⟩ => ⟨names, definitions⟩⟩

end ImpSSA.IR
