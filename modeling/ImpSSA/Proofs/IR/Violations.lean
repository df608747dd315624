import Mathlib.Data.List.Duplicate
import ImpSSA.Proofs.IR.WellFormed

/-!
# What the verifier reports

`Violation p e` says of a program, without reference to the order of the checks, that what the error `e`
reports is there. The error of a walk is at the place where the walk stops; `Repeats seen xs x` is such a
place in a walk that remembers what it has seen. What the verifier reports is a violation
(`Program.violation_of_verify`), and a program with a violation is not well formed, so the verifier
decides well-formedness and never blames a program for what it does not do (`verify_decides`).
-/

namespace ImpSSA.IR

/-- What is wrong with a program. -/
inductive Violation (p : Program) : VerifyError → Prop where
  | duplicateEntity {name} :
    List.Duplicate name (p.entities.map Entity.name) →
    Violation p (.duplicateEntity name)
  | noBlocks {d} :
    d ∈ p.definitions →
    d.blocks = [] →
    Violation p (.noBlocks d.name)
  | paramCount {d} :
    d ∈ p.definitions →
    d.params.length ≠ d.type.args.length →
    Violation p (.paramCount d.name d.params.length d.type.args.length)
  | duplicateLabel {d label} :
    d ∈ p.definitions →
    List.Duplicate label d.labels →
    Violation p (.duplicateLabel d.name label)
  | missingTerminator {d b} :
    d ∈ p.definitions → b ∈ d.blocks →
    b.term.2.isTerm = false →
    Violation p (.missingTerminator d.name b.label)
  | straightTerminator {d b x} :
    d ∈ p.definitions → b ∈ d.blocks → x ∈ b.code →
    x.2.isTerm = true →
    Violation p (.straightTerminator d.name b.label)
  | duplicateId {d b i} :
    d ∈ p.definitions → b ∈ d.blocks → i ∈ b.ids →
    List.Duplicate i (d.blocks.flatMap Block.ids) →
    Violation p (.duplicateId d.name b.label i)
  | unknownLabel {d b t target} :
    d ∈ p.definitions → b ∈ d.blocks →
    b.term.2 = .term t → target ∈ t.targets → target ∉ d.labels →
    Violation p (.unknownLabel d.name b.label target)
  | unknownCallee {d b x k} :
    d ∈ p.definitions → b ∈ d.blocks → x ∈ b.code →
    x.2.callee? = some k → p.knows k = false →
    Violation p (.unknownCallee d.name b.label k)

/-- A program with a violation is not well formed. -/
lemma Violation.not_wellFormed {p : Program} {e : VerifyError} (h : Violation p e) :
    ¬ p.WellFormed := by
  intro wf
  cases h with
  | duplicateEntity twice => exact twice.not_nodup wf.names
  | noBlocks mem none => exact (wf.definitions _ mem).nonempty none
  | paramCount mem ne => exact ne (wf.definitions _ mem).params
  | duplicateLabel mem twice => exact twice.not_nodup (wf.definitions _ mem).labels
  | missingTerminator mem inside not =>
    have := ((wf.definitions _ mem).blocks _ inside).term
    simp [not] at this
  | straightTerminator mem inside code term =>
    have := ((wf.definitions _ mem).blocks _ inside).code _ code
    simp [term] at this
  | duplicateId mem _ _ twice => exact twice.not_nodup (wf.definitions _ mem).ids
  | unknownLabel mem inside eq target unknown =>
    exact unknown (((wf.definitions _ mem).blocks _ inside).targets eq _ target)
  | unknownCallee mem inside code callee unknown =>
    have := ((wf.definitions _ mem).blocks _ inside).calls _ code callee
    simp [unknown] at this

/-! ## Walks -/

/-- A walk over `xs` comes to `x` when it has already seen it. -/
def Repeats {α : Type} (seen xs : List α) (x : α) : Prop :=
  ∃ pre post, xs = pre ++ x :: post ∧ (x ∈ pre ∨ x ∈ seen)

namespace Repeats
variable {α : Type} {seen xs ys : List α} {x y : α}

/-- The first member was already seen. -/
lemma here (mem : x ∈ seen) : Repeats seen (x :: xs) x := ⟨[], xs, rfl, .inr mem⟩

/-- A walk that has seen its first member goes on behind it. -/
lemma later (h : Repeats (y :: seen) xs x) : Repeats seen (y :: xs) x := by
  obtain ⟨pre, post, rfl, before⟩ := h
  refine ⟨y :: pre, post, rfl, ?_⟩
  rcases before with mem | mem
  · exact .inl (List.mem_cons_of_mem _ mem)
  · rcases List.mem_cons.1 mem with rfl | mem
    · exact .inl List.mem_cons_self
    · exact .inr mem

/-- A walk that has seen a whole list goes on behind it. -/
lemma behind (h : Repeats (ys.reverse ++ seen) xs x) : Repeats seen (ys ++ xs) x := by
  induction ys generalizing seen with
  | nil => exact h
  | cons y ys ih =>
    rw [List.reverse_cons, List.append_assoc] at h
    exact (ih h).later

/-- What comes behind a repetition does not matter. -/
lemma append (h : Repeats seen xs x) (ys : List α) : Repeats seen (xs ++ ys) x := by
  obtain ⟨pre, post, rfl, before⟩ := h
  exact ⟨pre, post ++ ys, by simp, before⟩

/-- What is repeated is a member. -/
lemma mem (h : Repeats seen xs x) : x ∈ xs := by
  obtain ⟨pre, post, rfl, _⟩ := h
  exact List.mem_append_right _ List.mem_cons_self

/-- A walk that had seen nothing comes to a duplicate. -/
lemma duplicate (h : Repeats [] xs x) : List.Duplicate x xs := by
  obtain ⟨pre, post, rfl, before⟩ := h
  have first : List.Sublist [x] pre := List.singleton_sublist.2 (before.resolve_right List.not_mem_nil)
  exact List.duplicate_iff_sublist.2 (first.append (List.singleton_sublist.2 List.mem_cons_self))

end Repeats

/-- A demand fails with its own error if it is not met. -/
lemma require_eq_error {ok : Bool} {e e' : VerifyError} :
    require ok e = .error e' ↔ ok = false ∧ e = e' := by
  cases ok <;> simp [require, pure, Except.pure, throw, throwThe, MonadExceptOf.throw]

/-- A walk over keys fails at one that it has seen. -/
lemma of_checkDistinct_error {err : Key → VerifyError} {seen ks : List Key} {e : VerifyError}
    (h : checkDistinct err seen ks = .error e) : ∃ k, Repeats seen ks k ∧ err k = e := by
  induction ks generalizing seen with
  | nil => cases h
  | cons k ks ih =>
    rw [checkDistinct] at h
    rcases bind_eq_error.1 h with first | ⟨_, _, rest⟩
    · obtain ⟨met, rfl⟩ := require_eq_error.1 first
      exact ⟨k, .here (by simpa using met), rfl⟩
    · obtain ⟨k', again, eq⟩ := ih rest
      exact ⟨k', again.later, eq⟩

/-- What is wrong with a block, where the identifiers `seen` stand before it. -/
inductive Block.Refused (b : Block) (fn : Key) (labels : List Key) (seen : List InstrId) :
    VerifyError → Prop where
  | missing :
    b.term.2.isTerm = false →
    b.Refused fn labels seen (.missingTerminator fn b.label)
  | straight {x} :
    x ∈ b.code → x.2.isTerm = true →
    b.Refused fn labels seen (.straightTerminator fn b.label)
  | repeated {i} :
    Repeats seen b.ids i →
    b.Refused fn labels seen (.duplicateId fn b.label i)
  | target {t target} :
    b.term.2 = .term t → target ∈ t.targets → target ∉ labels →
    b.Refused fn labels seen (.unknownLabel fn b.label target)

/-- A walk over code fails at a terminator, or at an identifier that it has seen. -/
lemma of_checkCode_error {fn label : Key} {seen : List InstrId} {code : List (InstrId × Item)}
    {e : VerifyError} (h : checkCode fn label seen code = .error e) :
    ((∃ x ∈ code, x.2.isTerm = true) ∧ e = .straightTerminator fn label) ∨
      ∃ i, Repeats seen (code.map (·.1)) i ∧ e = .duplicateId fn label i := by
  induction code generalizing seen with
  | nil => cases h
  | cons x code ih =>
    obtain ⟨i, item⟩ := x
    rw [checkCode] at h
    rcases bind_eq_error.1 h with first | ⟨_, _, h⟩
    · obtain ⟨term, rfl⟩ := require_eq_error.1 first
      exact .inl ⟨⟨_, List.mem_cons_self, by simpa using term⟩, rfl⟩
    · rcases bind_eq_error.1 h with first | ⟨_, _, rest⟩
      · obtain ⟨met, rfl⟩ := require_eq_error.1 first
        exact .inr ⟨i, .here (by simpa using met), rfl⟩
      · rcases ih rest with ⟨⟨x, mem, term⟩, eq⟩ | ⟨j, again, eq⟩
        · exact .inl ⟨⟨x, List.mem_cons_of_mem _ mem, term⟩, eq⟩
        · exact .inr ⟨j, again.later, eq⟩

/-- A block is refused for one of the reasons that there are. -/
lemma Block.of_check_error {b : Block} {fn : Key} {labels : List Key} {seen : List InstrId}
    {e : VerifyError} (h : b.check fn labels seen = .error e) : b.Refused fn labels seen e := by
  obtain ⟨label, code, i, item⟩ := b
  cases item with
  | instr x =>
    cases h
    exact .missing rfl
  | term t =>
    rcases bind_eq_error.1 h with first | ⟨seen', passed, h⟩
    · rcases of_checkCode_error first with ⟨⟨x, mem, term⟩, rfl⟩ | ⟨j, again, rfl⟩
      · exact .straight mem term
      · refine .repeated ?_
        rw [ids, items, List.map_append]
        exact again.append _
    · obtain ⟨_, _, rfl⟩ := checkCode_ok_iff.1 passed
      rcases bind_eq_error.1 h with first | ⟨_, _, h⟩
      · obtain ⟨met, rfl⟩ := require_eq_error.1 first
        refine .repeated ?_
        rw [ids, items, List.map_append]
        exact .behind (.here (by simpa using met))
      · rcases bind_eq_error.1 h with first | ⟨_, _, h⟩
        · obtain ⟨target, mem, first⟩ := of_forM_eq_error first
          obtain ⟨unknown, rfl⟩ := require_eq_error.1 first
          exact .target rfl mem (by simpa using unknown)
        · cases h

/-- A walk over blocks that fails does so at one of them, with the identifiers of those before it seen. -/
lemma of_checkBlocks_error {fn : Key} {labels : List Key} {seen : List InstrId} {bs : List Block}
    {e : VerifyError} (h : checkBlocks fn labels seen bs = .error e) :
    ∃ pre b post, bs = pre ++ b :: post ∧
      b.Refused fn labels ((pre.flatMap Block.ids).reverse ++ seen) e := by
  induction bs generalizing seen with
  | nil => cases h
  | cons b bs ih =>
    rw [checkBlocks] at h
    rcases bind_eq_error.1 h with first | ⟨seen', passed, rest⟩
    · exact ⟨[], b, bs, rfl, Block.of_check_error first⟩
    · obtain ⟨_, _, _, rfl⟩ := Block.check_ok_iff.1 passed
      obtain ⟨pre, b', post, rfl, refused⟩ := ih rest
      refine ⟨b :: pre, b', post, rfl, ?_⟩
      rw [List.flatMap_cons, List.reverse_append, List.append_assoc]
      exact refused

/-! ## Definitions and programs -/

/-- A refused block, with the identifiers of those before it seen, violates the rules of its program. -/
lemma Block.Refused.violation {p : Program} {d : Definition} {b : Block} {pre post : List Block}
    {e : VerifyError} (mem : d ∈ p.definitions) (split : d.blocks = pre ++ b :: post)
    (h : b.Refused d.name d.labels ((pre.flatMap Block.ids).reverse ++ []) e) : Violation p e := by
  have inside : b ∈ d.blocks := split ▸ List.mem_append_right _ List.mem_cons_self
  cases h with
  | missing not => exact .missingTerminator mem inside not
  | straight code term => exact .straightTerminator mem inside code term
  | repeated again =>
    refine .duplicateId mem inside again.mem (Repeats.duplicate ?_)
    rw [split, List.flatMap_append, List.flatMap_cons]
    exact .behind (again.append _)
  | target eq target unknown => exact .unknownLabel mem inside eq target unknown

/-- A definition that is refused has a violation. -/
lemma Definition.violation_of_verify {p : Program} {d : Definition} {e : VerifyError}
    (mem : d ∈ p.definitions) (h : d.verify (some p) = .error e) : Violation p e := by
  rcases bind_eq_error.1 h with h | ⟨_, _, h⟩
  · rcases bind_eq_error.1 h with first | ⟨_, _, h⟩
    · obtain ⟨none, rfl⟩ := require_eq_error.1 first
      exact .noBlocks mem (by simpa using none)
    rcases bind_eq_error.1 h with first | ⟨_, _, h⟩
    · obtain ⟨ne, rfl⟩ := require_eq_error.1 first
      exact .paramCount mem (by simpa using ne)
    rcases bind_eq_error.1 h with first | ⟨_, _, h⟩
    · obtain ⟨label, again, rfl⟩ := of_checkDistinct_error first
      exact .duplicateLabel mem again.duplicate
    · obtain ⟨pre, b, post, split, refused⟩ := of_checkBlocks_error h
      exact refused.violation mem split
  · obtain ⟨b, inside, h⟩ := of_forM_eq_error h
    obtain ⟨k, called, h⟩ := of_forM_eq_error h
    obtain ⟨unknown, rfl⟩ := require_eq_error.1 h
    obtain ⟨x, code, callee⟩ := List.mem_filterMap.1 called
    exact .unknownCallee mem inside code callee unknown

/-- What the verifier reports is there. -/
lemma Program.violation_of_verify {p : Program} {e : VerifyError} (h : p.verify = .error e) :
    Violation p e := by
  rcases bind_eq_error.1 h with first | ⟨_, _, rest⟩
  · obtain ⟨name, again, rfl⟩ := of_checkDistinct_error first
    exact .duplicateEntity again.duplicate
  · obtain ⟨d, mem, h⟩ := of_forM_eq_error rest
    exact d.violation_of_verify mem h

/-! ## The verifier decides -/

/-- What is no terminator is an instruction. -/
lemma Item.isTerm_eq_false {item : Item} : item.isTerm = false ↔ ∃ i, item = .instr i := by
  cases item with
  | instr i => exact ⟨fun _ => ⟨i, rfl⟩, fun _ => rfl⟩
  | term t => exact ⟨nofun, nofun⟩

/-- The callee of an item is the global that it calls. -/
lemma Item.callee?_eq_some {item : Item} {k : Key} :
    item.callee? = some k ↔ ∃ ty args, item = .instr (.call ty (.global k) args) := by
  constructor
  · intro eq
    unfold callee? at eq
    split at eq
    · cases eq
      exact ⟨_, _, rfl⟩
    · cases eq
  · rintro ⟨ty, args, rfl⟩
    rfl

/-- A known name is that of an entity. -/
lemma Program.knows_eq_true {p : Program} {k : Key} :
    p.knows k = true ↔ ∃ e ∈ p.entities, e.name = k := by
  simp [knows]

/-- Well-formed blocks, in terms of what stands in them. -/
lemma Block.wellFormed_iff {b : Block} {labels : List Key} {p : Program} :
    b.WellFormed labels p ↔
      (∃ t, b.term.2 = .term t ∧ ∀ l ∈ t.targets, l ∈ labels) ∧
      (∀ x ∈ b.code, ∃ i, x.2 = .instr i) ∧
      ∀ x ∈ b.code, ∀ ty k args, x.2 = .instr (.call ty (.global k) args) →
        ∃ e ∈ p.entities, e.name = k := by
  constructor
  · intro wf
    refine ⟨term_targets_iff.2 ⟨wf.term, wf.targets⟩, ?_, ?_⟩
    · exact fun x mem => Item.isTerm_eq_false.1 (wf.code x mem)
    · intro x mem ty k args call
      exact Program.knows_eq_true.1 (wf.calls x mem (Item.callee?_eq_some.2 ⟨ty, args, call⟩))
  · rintro ⟨term, code, calls⟩
    obtain ⟨term, targets⟩ := term_targets_iff.1 term
    refine ⟨term, fun x mem => Item.isTerm_eq_false.2 (code x mem), targets, ?_⟩
    intro x mem k callee
    obtain ⟨ty, args, call⟩ := Item.callee?_eq_some.1 callee
    exact Program.knows_eq_true.2 (calls x mem ty k args call)

/-- The verifier accepts a program if its functions have distinct names and every definition has
blocks, as many parameters as argument types, distinct labels, identifiers that are distinct across all
of its blocks, terminators exactly in terminator position with branches to its own labels, and direct
calls of functions of the program only. It refuses every program in which something is wrong, and
reports something that is. -/
theorem verify_decides (p : Program) :
    (p.verify = .ok () ↔
      (p.entities.map Entity.name).Nodup ∧
      ∀ d ∈ p.definitions,
        d.blocks ≠ [] ∧ d.params.length = d.type.args.length ∧
        (d.blocks.map (·.label)).Nodup ∧
        (d.blocks.flatMap fun b => b.code.map (·.1) ++ [b.term.1]).Nodup ∧
        ∀ b ∈ d.blocks,
          (∃ t, b.term.2 = .term t ∧ ∀ l ∈ t.targets, ∃ b' ∈ d.blocks, b'.label = l) ∧
          (∀ x ∈ b.code, ∃ i, x.2 = .instr i) ∧
          ∀ x ∈ b.code, ∀ ty k args, x.2 = .instr (.call ty (.global k) args) →
            ∃ e ∈ p.entities, e.name = k) ∧
    (∀ e, Violation p e → p.verify ≠ .ok ()) ∧
    (p.verify ≠ .ok () → ∃ e, p.verify = .error e ∧ Violation p e) := by
  have ids : Block.ids = fun b => b.code.map (·.1) ++ [b.term.1] := by
    funext b
    simp [Block.ids, Block.items]
  refine ⟨?_, ?_, ?_⟩
  · rw [Program.verify_ok_iff]
    constructor
    · intro wf
      refine ⟨wf.names, fun d mem => ?_⟩
      have wfd := wf.definitions d mem
      refine ⟨wfd.nonempty, wfd.params, wfd.labels, ids ▸ wfd.ids, fun b inside => ?_⟩
      simpa [Definition.labels] using Block.wellFormed_iff.1 (wfd.blocks b inside)
    · rintro ⟨names, definitions⟩
      refine ⟨names, fun d mem => ?_⟩
      obtain ⟨nonempty, params, labels, distinct, blocks⟩ := definitions d mem
      refine ⟨nonempty, params, labels, ids ▸ distinct, fun b inside => Block.wellFormed_iff.2 ?_⟩
      simpa [Definition.labels] using blocks b inside
  · intro e violation passes
    exact violation.not_wellFormed (Program.verify_ok_iff.1 passes)
  · intro refused
    cases eq : p.verify with
    | ok => exact absurd eq refused
    | error e => exact ⟨e, rfl, p.violation_of_verify eq⟩

/-- A program with a branch to a later block and a call of a later function; `last` identifies the
return behind the call. -/
def forwardUses (last : InstrId) : Program :=
  ⟨[.define ⟨.named "main", ⟨.void, []⟩, [],
      [⟨.anon 0, [], (.void 1, .term (.br (.anon 1)))⟩,
        ⟨.anon 1, [(.void 2, .instr (.call .void (.global (.named "f")) []))],
          (last, .term .retVoid)⟩]⟩,
    .define ⟨.named "f", ⟨.void, []⟩, [], [⟨.anon 0, [], (.void 1, .term .retVoid)⟩]⟩]⟩

/-- It is accepted, unless the identifier is that of the branch in the block before. -/
theorem forwardUses_decided :
    (forwardUses (.void 3)).verify = .ok () ∧
    ∃ e, (forwardUses (.void 1)).verify = .error e ∧ Violation (forwardUses (.void 1)) e := by
  constructor
  · refine (verify_decides _).1.2 ⟨by decide, ?_⟩
    simp +contextual [forwardUses, Program.definitions, Term.targets, Entity.name]
  · exact (verify_decides _).2.2 nofun

end ImpSSA.IR
