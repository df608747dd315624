import ImpSSA.Proofs.IR.Legible
import ImpSSA.Proofs.CodeGen.Compiled

/-!
# The text of compiled programs

Compiled code consists of elements that can be told from their lines (`CommandCode.legible`). The numbers
that are not written count the items without a result in program order, so they follow from the rest
(`renumber_unnumbered`). Hence compiled programs of one name with equal text are equal
(`compiled_text_inj`).
-/

namespace ImpSSA
open IR

/-- The elements can be told from their lines. -/
def LegibleStream (es : List Elem) : Prop := ∀ e ∈ es, ∃ ws, Legible e ws

/-- Streams one after the other. -/
lemma LegibleStream.append {es es' : List Elem} (h : LegibleStream es) (h' : LegibleStream es') :
    LegibleStream (es ++ es') :=
  List.forall_mem_append.2 ⟨h, h'⟩

/-- An element in front of a stream. -/
lemma LegibleStream.cons {e : Elem} {es : List Elem} {ws : List String} (h : Legible e ws)
    (h' : LegibleStream es) : LegibleStream (e :: es) :=
  List.forall_mem_cons.2 ⟨⟨ws, h⟩, h'⟩

/-- There is nothing to tell in an empty stream. -/
lemma LegibleStream.nil : LegibleStream [] := List.forall_mem_nil _

/-- The pointers of a context can be told from their texts. -/
def Context.Plain (ctx : Context) : Prop := ∀ x p, ctx.get? x = some p → p.Plain

section
variable {ctx : Context} {n n' v v' : Nat}

/-- The code of an arithmetic expression can be told from its lines, and its operand from its text. -/
lemma ArithCode.legible {e code w} (h : ArithCode ctx n e code w n') (plain : ctx.Plain) :
    LegibleStream (instrs code) ∧ w.Plain := by
  induction h with
  | num => exact ⟨.nil, .int⟩
  | var found => exact ⟨.cons (.load (plain _ _ found)) .nil, .register⟩
  | @arith _ _ _ op _ _ _ _ _ _ _ _ ihl ihr =>
    obtain ⟨left, l⟩ := ihl
    obtain ⟨right, r⟩ := ihr
    rw [instrs_append, instrs_append]
    exact ⟨left.append (right.append (.cons (.binop op.lower_mem l r) .nil)), .register⟩

/-- The code of a boolean expression can be told from its lines, and its operand from its text. -/
lemma BoolCode.legible {b code w} (h : BoolCode ctx n b code w n') (plain : ctx.Plain) :
    LegibleStream (instrs code) ∧ w.Plain := by
  induction h with
  | bool => exact ⟨.nil, .bool⟩
  | @cmp _ _ _ op _ _ _ _ _ _ codel coder =>
    obtain ⟨left, l⟩ := codel.legible plain
    obtain ⟨right, r⟩ := coder.legible plain
    rw [instrs_append, instrs_append]
    exact ⟨left.append (right.append (.cons (.icmp op.lower_mem l r) .nil)), .register⟩
  | not _ ih =>
    obtain ⟨operand, u⟩ := ih
    rw [instrs_append]
    exact ⟨operand.append (.cons (.binop (by decide) u .bool) .nil), .register⟩
  | and _ _ ihl ihr =>
    obtain ⟨left, l⟩ := ihl
    obtain ⟨right, r⟩ := ihr
    rw [instrs_append, instrs_append]
    exact ⟨left.append (right.append (.cons (.binop (by decide) l r) .nil)), .register⟩

/-- The code of a command can be told from its lines. -/
lemma CommandCode.legible {c es} (h : CommandCode ctx n v c es n' v') (plain : ctx.Plain) :
    LegibleStream es := by
  induction h with
  | skip => exact .nil
  | assign code found =>
    obtain ⟨value, w⟩ := code.legible plain
    exact value.append (.cons (.store w (plain _ _ found)) .nil)
  | seq _ _ ihc ihd => exact ihc.append ihd
  | cond test _ _ ihc ihd =>
    obtain ⟨code, w⟩ := test.legible plain
    exact code.append <| .cons (.condBr w) <| .cons .label <| ihc.append <| .cons .br <|
      .cons .label <| ihd.append <| .cons .br <| .cons .label .nil
  | loop test _ ih =>
    obtain ⟨code, w⟩ := test.legible plain
    exact .cons .br <| .cons .label <| code.append <| .cons (.condBr w) <| .cons .label <|
      ih.append <| .cons .br <| .cons .label .nil

/-- Storage can be told from its lines. -/
lemma storage_legible (xs : List String) : LegibleStream (instrs (storageCode n v xs)) := by
  induction xs with
  | nil => exact .nil
  | cons x xs ih =>
    rw [storageCode, instrs_append]
    exact ih.append (.cons .alloca (.cons (.store .int .register) .nil))

/-- The code that prints names can be told from its lines. -/
lemma PrintsCode.legible {xs code} (h : PrintsCode ctx n v xs code n' v') (plain : ctx.Plain) :
    LegibleStream (instrs code) := by
  induction h with
  | nil => exact .nil
  | cons found _ ih => exact .cons (.load (plain _ _ found)) (.cons (.call .register) ih)

/-- The pointers of stored names can be told from their texts. -/
lemma storageContext_plain (n : Nat) (xs : List String) : (storageContext n xs).Plain := by
  intro x p found
  obtain ⟨_, _, _, rfl⟩ := of_get?_storageContext found
  exact .register

end

/-- The stream of a function can be told from its lines. -/
lemma functionStream_legible {c : Node} {names printed : List String} {es code n v n' v'}
    (body : CommandCode (storageContext 1 names) (1 + names.length) (1 + names.length) c es n v)
    (printing : PrintsCode (storageContext 1 names) n v printed code n' v') :
    LegibleStream (functionStream names es code v') := by
  have plain := storageContext_plain 1 names
  exact .cons .label <| (storage_legible names).append <| (body.legible plain).append <|
    (printing.legible plain).append <| .cons .retVoid .nil

/-! ## Numbers that are not written -/

/-- The stream with its items without a result numbered from `a` on. -/
def renumber (a : Nat) : List Elem → List Elem
  | [] => []
  | .instr (.void _) x :: es => .instr (.void a) x :: renumber (a + 1) es
  | .term (.void _) x :: es => .term (.void a) x :: renumber (a + 1) es
  | e :: es => e :: renumber a es

/-- The first of the numbers from `a` on is `a`. -/
lemma number_eq_of_cons {a b : Nat} {m : Int} {ms : List Int}
    (eq : m :: ms = (List.Ico a b).map Int.ofNat) : m = a ∧ ms = (List.Ico (a + 1) b).map Int.ofNat := by
  rcases Nat.lt_or_ge a b with lt | ge
  · rw [List.Ico.eq_cons lt] at eq
    exact List.cons.inj eq
  · rw [List.Ico.eq_nil_of_le ge] at eq
    cases eq

/-- Numbers that count up can be left out and put in again. -/
lemma renumber_unnumbered {es : List Elem} {a b : Nat}
    (counted : (es.filterMap Elem.id?).filterMap InstrId.number? = (List.Ico a b).map Int.ofNat) :
    renumber a (es.map Elem.unnumbered) = es := by
  induction es generalizing a with
  | nil => rfl
  | cons e es ih =>
    cases e with
    | label k => exact congrArg _ (ih counted)
    | foreign => exact congrArg _ (ih counted)
    | instr i x =>
      cases i with
      | result k => exact congrArg _ (ih counted)
      | void m =>
        obtain ⟨rfl, rest⟩ := number_eq_of_cons counted
        exact congrArg _ (ih rest)
    | term i x =>
      cases i with
      | result k => exact congrArg _ (ih counted)
      | void m =>
        obtain ⟨rfl, rest⟩ := number_eq_of_cons counted
        exact congrArg _ (ih rest)

/-! ## Programs -/

/-- Compiled functions of one name with equal text have blocks with equal text. -/
lemma blocksText_of_text {entry : Key} {blocks blocks' : List Block}
    (eq : (⟨entry, ⟨.void, []⟩, [], blocks⟩ : Definition).text =
      (⟨entry, ⟨.void, []⟩, [], blocks'⟩ : Definition).text) : blocksText blocks = blocksText blocks' := by
  simp only [Definition.text, joinLines, String.intercalate_cons_cons, String.intercalate_singleton] at eq
  rw [String.append_right_inj, String.append_left_inj, String.append_left_inj] at eq
  exact eq

/-- A text that begins with a declaration is not that of a definition. -/
lemma declaration_ne_definition (d : Declaration) (d' : Definition) (s : String) :
    d.text ++ s ≠ d'.text := by
  intro eq
  have chars := congrArg String.toList eq
  simp [Declaration.text, Definition.text, joinLines] at chars

/-- Programs with equal text print alike, and their definitions have equal text. -/
lemma text_of_programOf {prints prints' : Bool} {d d' : Definition}
    (eq : (programOf prints d).text = (programOf prints' d').text) :
    prints = prints' ∧ d.text = d'.text := by
  have alone (d : Definition) : (programOf false d).text = d.text := String.intercalate_singleton
  have declared (d : Definition) : (programOf true d).text =
      (⟨printName, ⟨.void, [.i64]⟩⟩ : Declaration).text ++ ("\n\n" ++ d.text) := by
    rw [← String.append_assoc]
    exact String.intercalate_cons_cons
  cases prints with
  | false =>
    rw [alone] at eq
    cases prints' with
    | false =>
      rw [alone] at eq
      exact ⟨rfl, eq⟩
    | true =>
      rw [declared] at eq
      exact absurd eq.symm (declaration_ne_definition _ _ _)
  | true =>
    rw [declared] at eq
    cases prints' with
    | false =>
      rw [alone] at eq
      exact absurd eq (declaration_ne_definition _ _ _)
    | true =>
      rw [declared, String.append_right_inj, String.append_right_inj] at eq
      exact ⟨rfl, eq⟩

/-- Compiled programs of one name are equal if their texts are. -/
lemma Compiled.eq_of_text {c c' : Node} {entry : Key} {prints prints' : Bool}
    {names names' : List String} {p p' : Program} (h : Compiled c entry prints names p)
    (h' : Compiled c' entry prints' names' p') (eq : p.text = p'.text) : p = p' := by
  obtain ⟨body, printing, written⟩ := h
  obtain ⟨body', printing', written'⟩ := h'
  rename_i blocks _ _ _ _ _ _ blocks'
  obtain ⟨rfl, definitions⟩ := text_of_programOf eq
  have ne {blocks : List Block} {es : List Elem} (written : stream blocks = mark 0 :: es) : blocks ≠ [] := by
    rintro rfl
    cases written
  have legible := functionStream_legible body printing
  have legible' := functionStream_legible body' printing'
  have numbered := numbered_functionStream body printing
  have numbered' := numbered_functionStream body' printing'
  rw [← written] at legible numbered
  rw [← written'] at legible' numbered'
  have same := unnumbered_of_blocksText (ne written) (ne written') legible legible'
    (blocksText_of_text definitions)
  -- both streams count their items without a result from one on
  have streams : stream blocks = stream blocks' := by
    rw [← renumber_unnumbered numbered.voids, ← renumber_unnumbered numbered'.voids, same]
  rw [stream_inj streams]

/-- Two commands compiled under one name have the same text only if they have the same program, whatever
names are declared and whether values are printed. -/
theorem compiled_text_inj {c c' : Node} (ws : c.WellSorted .command) (ws' : c'.WellSorted .command)
    (entry : Key) (prints prints' : Bool) {declared declared' : Option (List String)}
    (admits : c.Admits declared) (admits' : c'.Admits declared') :
    ∃ p p', c.compile entry prints declared = .ok p ∧ c'.compile entry prints' declared' = .ok p' ∧
      (p.text = p'.text → p = p') := by
  obtain ⟨p, compiled, shape⟩ := exists_compiled ws entry prints admits
  obtain ⟨p', compiled', shape'⟩ := exists_compiled ws' entry prints' admits'
  exact ⟨p, p', compiled, compiled', shape.eq_of_text shape'⟩

/-- Other names, empty commands and a literal that wraps to the same word do not show in the text, so
they do not show in the program. -/
theorem disguised_loop_text_inj :
    let loop : Node := .loop (.cmp .le (.var "X") (.num 3)) .skip
    let disguised : Node :=
      .seq .skip (.loop (.cmp .le (.var "Y") (.num 18446744073709551619)) (.seq .skip .skip))
    loop.WellSorted .command ∧ disguised.WellSorted .command ∧ loop.Admits (some ["Z", "X"]) ∧
    disguised.Admits (some ["Y", "Z"]) ∧
    ∃ p p', loop.compile (.named "main") true (some ["Z", "X"]) = .ok p ∧
      disguised.compile (.named "main") true (some ["Y", "Z"]) = .ok p' ∧ p.text = p'.text ∧ p = p' := by
  intro loop disguised
  have ws : loop.WellSorted .command := by
    repeat constructor
  have ws' : disguised.WellSorted .command := by
    repeat constructor
  have admits : loop.Admits (some ["Z", "X"]) := by
    unfold Node.Admits
    decide +kernel
  have admits' : disguised.Admits (some ["Y", "Z"]) := by
    unfold Node.Admits
    decide +kernel
  obtain ⟨p, p', compiled, compiled', inj⟩ :=
    compiled_text_inj ws ws' (.named "main") true true admits admits'
  have texts : (loop.compile (.named "main") true (some ["Z", "X"])).toOption.map Program.text =
      (disguised.compile (.named "main") true (some ["Y", "Z"])).toOption.map Program.text := by
    decide +kernel
  rw [compiled, compiled'] at texts
  have same := Option.some.inj texts
  exact ⟨ws, ws', admits, admits', p, p', compiled, compiled', same, inj same⟩

end ImpSSA
