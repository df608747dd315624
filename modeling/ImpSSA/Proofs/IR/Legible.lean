import Mathlib
import ImpSSA.IR.Print
import ImpSSA.Proofs.Lists
import ImpSSA.Proofs.IR.Stream

/-!
# Text that can be read back

Not every program can be told from its text: the key `1` and the name `"1"` are written alike, numbers of
items without a result are not written at all, and everything unknown is written in one way. `Legible e ws`
lists the forms of elements that can be told, each with the words of its line. Words have no blanks and
lines no line ends, so a text falls into lines and a line into words in one way only (`intercalate_inj`),
and the words tell the element up to the number of an item without a result (`Legible.unnumbered_eq`).
`unnumbered_of_blocksText` puts this together for blocks.
-/

namespace ImpSSA.IR

/-! ## Numerals -/

/-- Numerals consist of digits and signs. -/
lemma mem_numeral {n : Int} {c : Char} (mem : c ∈ (toString n).toList) :
    c.isDigit = true ∨ c = '-' := by
  rw [Int.toString_eq_repr] at mem
  cases n with
  | ofNat m =>
    rw [Int.repr, Nat.toList_repr] at mem
    exact .inl (Nat.isDigit_of_mem_toDigits (by decide) (by decide) mem)
  | negSucc m =>
    rw [Int.repr, String.toList_append, Nat.toList_repr] at mem
    rcases List.mem_append.1 mem with sign | digit
    · exact .inr (by simpa using sign)
    · exact .inl (Nat.isDigit_of_mem_toDigits (by decide) (by decide) digit)

/-- No numeral is empty. -/
lemma exists_mem_numeral (n : Int) : ∃ c, c ∈ (toString n).toList := by
  rw [Int.toString_eq_repr]
  cases n with
  | ofNat m =>
    rw [Int.repr, Nat.toList_repr]
    exact List.exists_mem_of_ne_nil _ Nat.toDigits_ne_nil
  | negSucc m =>
    rw [Int.repr, String.toList_append]
    exact ⟨'-', List.mem_append_left _ (by simp)⟩

/-- Integers can be told from their numerals. -/
lemma numeral_inj {m n : Int} : toString m = toString n ↔ m = n := by
  rw [Int.toString_eq_repr, Int.toString_eq_repr, Int.repr_inj]

/-! ## Words and lines -/

/-- A text without blanks and line ends. -/
def Solid (s : String) : Prop := ∀ c ∈ s.toList, c ≠ ' ' ∧ c ≠ '\n'

/-- Solid texts put together are solid. -/
lemma Solid.append {s t : String} (hs : Solid s) (ht : Solid t) : Solid (s ++ t) := by
  rw [Solid, String.toList_append]
  exact List.forall_mem_append.2 ⟨hs, ht⟩

/-- Numerals are solid. -/
lemma solid_numeral (n : Int) : Solid (toString n) := by
  intro c mem
  rcases mem_numeral mem with digit | rfl
  · refine ⟨?_, ?_⟩
    · rintro rfl
      exact absurd digit (by decide)
    · rintro rfl
      exact absurd digit (by decide)
  · decide

/-- Texts put together with a separator that is in none of them can be told apart again. -/
lemma intercalate_inj {c : Char} {sep : String} (single : sep.toList = [c]) {xs ys : List String}
    (xs_free : ∀ s ∈ xs, c ∉ s.toList) (ys_free : ∀ s ∈ ys, c ∉ s.toList) (xs_ne : xs ≠ [])
    (ys_ne : ys ≠ []) (eq : sep.intercalate xs = sep.intercalate ys) : xs = ys := by
  have chars := congrArg String.toList eq
  rw [String.toList_intercalate, String.toList_intercalate, single] at chars
  have parts := congrArg (List.splitOn c) chars
  rw [List.splitOn_intercalate c (List.forall_mem_map.2 xs_free) (by simpa using xs_ne),
    List.splitOn_intercalate c (List.forall_mem_map.2 ys_free) (by simpa using ys_ne)] at parts
  exact (List.map_inj_right fun _ _ => String.toList_inj.1).1 parts

/-- A line of words has no line end. -/
lemma lineEnd_not_mem {ws : List String} (solid : ∀ w ∈ ws, Solid w) :
    '\n' ∉ (" ".intercalate ws).toList := by
  induction ws with
  | nil => simp
  | cons w ws ih =>
    obtain ⟨first, rest⟩ := List.forall_mem_cons.1 solid
    have none : '\n' ∉ w.toList := fun mem => (first _ mem).2 rfl
    cases ws with
    | nil => rwa [String.intercalate_singleton]
    | cons w' ws => simpa [String.intercalate_cons_cons, none] using ih rest

/-! ## Operands -/

/-- Literals and numbered registers. -/
inductive Value.Plain : Value → Prop where
  | int {n} :
    Plain (.int n)
  | bool {b} :
    Plain (.bool b)
  | register {n : Int} :
    Plain (.register (.anon n))

section
variable (n : Int) (k : Key)

/-- Truth values are written as words. -/
@[simp] lemma Value.text_bool (b : Bool) : (Value.bool b).text = if b then "true" else "false" := rfl

/-- A global is written with its mark. -/
@[simp] lemma Value.text_global : (Value.global k).text = "@" ++ k.text := rfl

/-- A type of integers is written with its width. -/
@[simp] lemma Ty.text_int : (Ty.int n).text = "i" ++ toString n := rfl

/-- The type of no value is written as a word. -/
@[simp] lemma Ty.text_void : Ty.void.text = "void" := rfl

end

/-- The operands of compiled code are solid. -/
lemma Value.Plain.solid {v : Value} (h : v.Plain) : Solid v.text := by
  cases h with
  | int => exact solid_numeral _
  | @bool b => cases b <;> simp [Solid]
  | register => exact .append (by simp [Solid]) (solid_numeral _)

/-- A text with a character of no numeral is none. -/
lemma numeral_ne {n : Int} {s : String} {c : Char} (mem : c ∈ s.toList) (digit : c.isDigit = false)
    (sign : c ≠ '-') : toString n ≠ s := by
  rintro rfl
  rcases mem_numeral mem with h | h
  · rw [h] at digit
    cases digit
  · exact sign h

/-- No numeral is a truth value. -/
lemma numeral_ne_bool (n : Int) (b : Bool) : toString n ≠ (Value.bool b).text := by
  cases b
  · exact numeral_ne (c := 'f') (by simp) (by decide) (by decide)
  · exact numeral_ne (c := 't') (by simp) (by decide) (by decide)

/-- No numeral is a register. -/
lemma numeral_ne_register (m n : Int) : toString m ≠ "%" ++ toString n :=
  numeral_ne (c := '%') (by simp) (by decide) (by decide)

/-- No truth value is a register. -/
lemma bool_ne_register (b : Bool) (n : Int) : (Value.bool b).text ≠ "%" ++ toString n := by
  intro eq
  have chars := congrArg String.toList eq
  cases b <;> simp at chars

/-- Truth values are told from their texts. -/
lemma bool_text_inj {b b' : Bool} (eq : (Value.bool b).text = (Value.bool b').text) : b = b' := by
  cases b <;> cases b' <;> simp at eq ⊢

/-- Plain operands can be told from their texts. -/
lemma Value.Plain.text_inj {u v : Value} (hu : u.Plain) (hv : v.Plain) (eq : u.text = v.text) :
    u = v := by
  cases hu with
  | @int m =>
    cases hv with
    | int => exact congrArg Value.int (numeral_inj.1 eq)
    | bool => exact absurd eq (numeral_ne_bool _ _)
    | register => exact absurd eq (numeral_ne_register _ _)
  | bool =>
    cases hv with
    | int => exact absurd eq.symm (numeral_ne_bool _ _)
    | bool => exact congrArg Value.bool (bool_text_inj eq)
    | register => exact absurd eq (bool_ne_register _ _)
  | register =>
    cases hv with
    | int => exact absurd eq.symm (numeral_ne_register _ _)
    | bool => exact absurd eq.symm (bool_ne_register _ _)
    | register =>
      have same := numeral_inj.1 ((String.append_right_inj "%").1 eq)
      rw [same]

/-! ## Elements -/

/-- The line of an element; it is empty where a stream of blocks has none. -/
def Elem.line : Elem → String
  | .label k => k.text ++ ":"
  | .instr i x => codeLine i x
  | .term _ x => x.termLine
  | .foreign => ""

/-- The forms of elements that can be told from their lines, with the words of the line. -/
inductive Legible : Elem → List String → Prop where
  | label {n : Int} :
    Legible (.label (.anon n)) [toString n ++ ":"]
  | binop {n bits : Int} {op l r} :
    op ∈ BinaryOp.all →
    l.Plain →
    r.Plain →
    Legible (.instr (.result (.anon n)) (.instr (.binop op (.int bits) l r)))
      ["", "", "%" ++ toString n, "=", op.name, "i" ++ toString bits, l.text ++ ",", r.text]
  | icmp {n : Int} {c l r} :
    c ∈ Condition.all →
    l.Plain →
    r.Plain →
    Legible (.instr (.result (.anon n)) (.instr (.icmp c .i64 l r)))
      ["", "", "%" ++ toString n, "=", "icmp", c.name, Ty.i64.text, l.text ++ ",", r.text]
  | alloca {n : Int} :
    Legible (.instr (.result (.anon n)) (.instr (.alloca .i64)))
      ["", "", "%" ++ toString n, "=", "alloca", Ty.i64.text]
  | load {n : Int} {p} :
    p.Plain →
    Legible (.instr (.result (.anon n)) (.instr (.load .i64 p)))
      ["", "", "%" ++ toString n, "=", "load", Ty.i64.text ++ ",", (Ty.ptr .i64).text, p.text]
  | store {v : Int} {w p} :
    w.Plain →
    p.Plain →
    Legible (.instr (.void v) (.instr (.store .i64 w p)))
      ["", "", "store", Ty.i64.text, w.text ++ ",", (Ty.ptr .i64).text, p.text]
  | call {v : Int} {w} :
    w.Plain →
    Legible (.instr (.void v) (.instr (.call .void (.global (.named "print")) [(.i64, w)])))
      ["", "", "call", "void", "@print(" ++ Ty.i64.text, w.text ++ ")"]
  | br {v l : Int} :
    Legible (.term (.void v) (.term (.br (.anon l)))) ["", "", "br", "label", "%" ++ toString l]
  | condBr {v l l' : Int} {w} :
    w.Plain →
    Legible (.term (.void v) (.term (.condBr w (.anon l) (.anon l'))))
      ["", "", "br", Ty.i1.text, w.text ++ ",", "label", "%" ++ toString l ++ ",", "label",
        "%" ++ toString l']
  | retVoid {v : Int} :
    Legible (.term (.void v) (.term .retVoid)) ["", "", "ret", "void"]

/-- An element without the number that is not written. -/
def Elem.unnumbered : Elem → Elem
  | .instr (.void _) x => .instr (.void 0) x
  | .term (.void _) x => .term (.void 0) x
  | e => e

/-- The type of words is solid. -/
lemma solid_i64 : Solid Ty.i64.text := .append (by simp [Solid]) (solid_numeral 64)

/-- The type of truth values is solid. -/
lemma solid_i1 : Solid Ty.i1.text := .append (by simp [Solid]) (solid_numeral 1)

/-- The type of pointers to words is solid. -/
lemma solid_ptr : Solid (Ty.ptr .i64).text := .append solid_i64 (by simp [Solid])

/-- Numbered registers are solid. -/
lemma solid_key (n : Int) : Solid ("%" ++ toString n) := .append (by simp [Solid]) (solid_numeral n)

/-- Known operators are solid. -/
lemma solid_operator {op : BinaryOp} (known : op ∈ BinaryOp.all) : Solid op.name := by
  cases op with
  | unknown => simp [BinaryOp.all] at known
  | _ => simp [Solid, BinaryOp.name]

/-- Known conditions are solid. -/
lemma solid_condition {c : Condition} (known : c ∈ Condition.all) : Solid c.name := by
  cases c with
  | unknown => simp [Condition.all] at known
  | _ => simp [Solid, Condition.name]

/-- Known operators are told from their names. -/
lemma operator_inj {op op' : BinaryOp} (known : op ∈ BinaryOp.all) (known' : op' ∈ BinaryOp.all)
    (eq : op.name = op'.name) : op = op' :=
  List.inj_on_of_nodup_map (by decide : (BinaryOp.all.map BinaryOp.name).Nodup) known known' eq

/-- Known conditions are told from their names. -/
lemma condition_inj {c c' : Condition} (known : c ∈ Condition.all) (known' : c' ∈ Condition.all)
    (eq : c.name = c'.name) : c = c' :=
  List.inj_on_of_nodup_map (by decide : (Condition.all.map Condition.name).Nodup) known known' eq

/-- No known operator is written like a load. -/
lemma operator_ne_load {op : BinaryOp} (known : op ∈ BinaryOp.all) : op.name ≠ "load" := by
  revert op
  decide

/-- A register is not written like a word without its mark. -/
lemma key_ne_word {n : Int} {s : String} (free : '%' ∉ s.toList) : "%" ++ toString n ≠ s := by
  rintro rfl
  simp at free

namespace Legible
variable {e e' : Elem} {ws ws' : List String}

/-- The words of a line are solid. -/
lemma solid (h : Legible e ws) : ∀ w ∈ ws, Solid w := by
  have blank : Solid "" := by simp [Solid]
  have comma {s} (hs : Solid s) : Solid (s ++ ",") := hs.append (by simp [Solid])
  cases h with
  | label => simpa using (solid_numeral _).append (by simp [Solid])
  | binop known l r =>
    simp only [List.forall_mem_cons]
    exact ⟨blank, blank, solid_key _, by simp [Solid], solid_operator known,
      .append (by simp [Solid]) (solid_numeral _), comma l.solid, r.solid, List.forall_mem_nil _⟩
  | icmp known l r =>
    simp only [List.forall_mem_cons]
    exact ⟨blank, blank, solid_key _, by simp [Solid], by simp [Solid], solid_condition known,
      solid_i64, comma l.solid, r.solid, List.forall_mem_nil _⟩
  | alloca =>
    simp only [List.forall_mem_cons]
    exact ⟨blank, blank, solid_key _, by simp [Solid], by simp [Solid], solid_i64,
      List.forall_mem_nil _⟩
  | load p =>
    simp only [List.forall_mem_cons]
    exact ⟨blank, blank, solid_key _, by simp [Solid], by simp [Solid], comma solid_i64, solid_ptr,
      p.solid, List.forall_mem_nil _⟩
  | store w p =>
    simp only [List.forall_mem_cons]
    exact ⟨blank, blank, by simp [Solid], solid_i64, comma w.solid, solid_ptr, p.solid,
      List.forall_mem_nil _⟩
  | call w =>
    simp only [List.forall_mem_cons]
    exact ⟨blank, blank, by simp [Solid], by simp [Solid], .append (by simp [Solid]) solid_i64,
      w.solid.append (by simp [Solid]), List.forall_mem_nil _⟩
  | br =>
    simp only [List.forall_mem_cons]
    exact ⟨blank, blank, by simp [Solid], by simp [Solid], solid_key _, List.forall_mem_nil _⟩
  | condBr w =>
    simp only [List.forall_mem_cons]
    exact ⟨blank, blank, by simp [Solid], solid_i1, comma w.solid, by simp [Solid],
      comma (solid_key _), by simp [Solid], solid_key _, List.forall_mem_nil _⟩
  | retVoid => simp [Solid]

/-- The line consists of the words. -/
lemma line_eq (h : Legible e ws) : e.line = " ".intercalate ws := by
  cases h <;>
    simp [Elem.line, codeLine, Item.codeText, Item.termLine, Instr.text, Term.text, Value.typed,
      Key.target, Key.text, ← String.toList_inj]

/-- Equal words are those of one element, up to the number that is not written. -/
lemma unnumbered_eq (h : Legible e ws) (h' : Legible e' ws') (eq : ws = ws') :
    e.unnumbered = e'.unnumbered := by
  -- forms with the same number of words differ in a word; all others are told by the number of words
  cases h with
  | label =>
    cases h' with
    | label =>
      have same := numeral_inj.1 ((String.append_left_inj ":").1 (List.cons.inj eq).1)
      rw [same]
    | _ => simp at eq
  | binop known l r =>
    cases h' with
    | binop known' l' r' =>
      simp only [List.cons.injEq, String.append_right_inj, String.append_left_inj, numeral_inj] at eq
      obtain ⟨_, _, rfl, _, op, rfl, left, right, _⟩ := eq
      rw [operator_inj known known' op, l.text_inj l' left, r.text_inj r' right]
    | load =>
      simp only [List.cons.injEq] at eq
      exact absurd eq.2.2.2.2.1 (operator_ne_load known)
    | _ => simp at eq
  | icmp known l r =>
    cases h' with
    | icmp known' l' r' =>
      simp only [List.cons.injEq, String.append_right_inj, String.append_left_inj, numeral_inj] at eq
      obtain ⟨_, _, rfl, _, _, c, _, left, right, _⟩ := eq
      rw [condition_inj known known' c, l.text_inj l' left, r.text_inj r' right]
    | condBr =>
      simp only [List.cons.injEq] at eq
      exact absurd eq.2.2.1 (key_ne_word (by simp))
    | _ => simp at eq
  | alloca =>
    cases h' with
    | alloca =>
      simp only [List.cons.injEq, String.append_right_inj, numeral_inj] at eq
      obtain ⟨_, _, rfl, _⟩ := eq
      rfl
    | call =>
      simp only [List.cons.injEq] at eq
      exact absurd eq.2.2.1 (key_ne_word (by simp))
    | _ => simp at eq
  | load p =>
    cases h' with
    | load p' =>
      simp only [List.cons.injEq, String.append_right_inj, numeral_inj] at eq
      obtain ⟨_, _, rfl, _, _, _, _, pointer, _⟩ := eq
      rw [p.text_inj p' pointer]
    | binop known =>
      simp only [List.cons.injEq] at eq
      exact absurd eq.2.2.2.2.1.symm (operator_ne_load known)
    | _ => simp at eq
  | store w p =>
    cases h' with
    | store w' p' =>
      simp only [List.cons.injEq, String.append_left_inj] at eq
      obtain ⟨_, _, _, _, value, _, pointer, _⟩ := eq
      rw [w.text_inj w' value, p.text_inj p' pointer]
      rfl
    | _ => simp at eq
  | call w =>
    cases h' with
    | call w' =>
      simp only [List.cons.injEq, String.append_left_inj] at eq
      obtain ⟨_, _, _, _, _, value, _⟩ := eq
      rw [w.text_inj w' value]
      rfl
    | alloca =>
      simp only [List.cons.injEq] at eq
      exact absurd eq.2.2.1.symm (key_ne_word (by simp))
    | _ => simp at eq
  | br =>
    cases h' with
    | br =>
      simp only [List.cons.injEq, String.append_right_inj, numeral_inj] at eq
      obtain ⟨_, _, _, _, rfl, _⟩ := eq
      rfl
    | _ => simp at eq
  | condBr w =>
    cases h' with
    | condBr w' =>
      simp only [List.cons.injEq, String.append_right_inj, String.append_left_inj, numeral_inj] at eq
      obtain ⟨_, _, _, _, value, _, rfl, _, rfl, _⟩ := eq
      rw [w.text_inj w' value]
      rfl
    | icmp =>
      simp only [List.cons.injEq] at eq
      exact absurd eq.2.2.1.symm (key_ne_word (by simp))
    | _ => simp at eq
  | retVoid =>
    cases h' with
    | retVoid => rfl
    | _ => simp at eq

/-- Lines can be told apart up to the numbers that are not written. -/
lemma unnumbered_of_line (h : Legible e ws) (h' : Legible e' ws') (eq : e.line = e'.line) :
    e.unnumbered = e'.unnumbered := by
  rw [h.line_eq, h'.line_eq] at eq
  have free {e ws} (h : Legible e ws) : ∀ w ∈ ws, ' ' ∉ w.toList :=
    fun w mem blank => (h.solid w mem _ blank).1 rfl
  have ne {e ws} (h : Legible e ws) : ws ≠ [] := by cases h <;> simp
  exact h.unnumbered_eq h' (intercalate_inj (by simp) (free h) (free h') (ne h) (ne h') eq)

/-- The line of a legible element has no line end. -/
lemma lineEnd_not_mem_line (h : Legible e ws) : '\n' ∉ e.line.toList := by
  rw [h.line_eq]
  exact lineEnd_not_mem h.solid

end Legible

/-! ## Blocks -/

/-- Lines of lines, none of them empty, are all the lines. -/
lemma joinLines_map {xss : List (List String)} (ne : ∀ xs ∈ xss, xs ≠ []) :
    joinLines (xss.map joinLines) = joinLines xss.flatten := by
  induction xss with
  | nil => rfl
  | cons xs xss ih =>
    obtain ⟨first, rest⟩ := List.forall_mem_cons.1 ne
    cases xss with
    | nil => simp [joinLines]
    | cons ys xss =>
      have more : (ys :: xss).flatten ≠ [] := by
        rw [List.flatten_cons]
        exact List.append_ne_nil_of_left_ne_nil (rest ys List.mem_cons_self) _
      calc joinLines ((xs :: ys :: xss).map joinLines)
        _ = joinLines xs ++ "\n" ++ joinLines ((ys :: xss).map joinLines) :=
          String.intercalate_cons_of_ne_nil (by simp)
        _ = joinLines xs ++ "\n" ++ joinLines (ys :: xss).flatten := by rw [ih rest]
        _ = joinLines (xs ++ (ys :: xss).flatten) :=
          (String.intercalate_append_of_ne_nil first more).symm

/-- The text of blocks has one line for each element of their stream. -/
lemma blocksText_eq (bs : List Block) : blocksText bs = joinLines ((stream bs).map Elem.line) := by
  have text (b : Block) : b.text = joinLines (b.elems.map Elem.line) := by
    simp [Block.text, Block.elems, instrs, Elem.line, Function.comp_def]
  have lines : bs.map Block.text = (bs.map fun b => b.elems.map Elem.line).map joinLines := by
    rw [List.map_map]
    exact List.map_congr_left fun b _ => text b
  rw [blocksText, lines, joinLines_map, stream, List.map_flatMap, List.flatMap_def]
  intro xs mem
  obtain ⟨b, _, rfl⟩ := List.mem_map.1 mem
  simp [Block.elems]

/-- Blocks can be read off their stream. -/
lemma stream_inj {bs bs' : List Block} (eq : stream bs = stream bs') : bs = bs' := by
  induction bs generalizing bs' with
  | nil =>
    cases bs' with
    | nil => rfl
    | cons => cases eq
  | cons b bs ih =>
    cases bs' with
    | nil => cases eq
    | cons b' bs' =>
      rw [stream, stream, List.flatMap_cons, List.flatMap_cons, Block.elems, Block.elems,
        List.cons_append, List.cons_append] at eq
      obtain ⟨label, tail⟩ := List.cons.inj eq
      have items := congrArg region tail
      rw [region_elems, region_elems] at items
      obtain ⟨code, term⟩ := List.append_inj' items rfl
      obtain ⟨l, c, t⟩ := b
      obtain ⟨l', c', t'⟩ := b'
      cases label
      cases code
      cases term
      rw [ih (List.append_cancel_left tail)]

/-- Legible blocks with equal text have equal streams, up to the numbers that are not written. -/
lemma unnumbered_of_blocksText {bs bs' : List Block} (ne : bs ≠ []) (ne' : bs' ≠ [])
    (legible : ∀ e ∈ stream bs, ∃ ws, Legible e ws) (legible' : ∀ e ∈ stream bs', ∃ ws, Legible e ws)
    (eq : blocksText bs = blocksText bs') :
    (stream bs).map Elem.unnumbered = (stream bs').map Elem.unnumbered := by
  have free {bs : List Block} (legible : ∀ e ∈ stream bs, ∃ ws, Legible e ws) :
      ∀ s ∈ (stream bs).map Elem.line, '\n' ∉ s.toList := by
    intro s mem
    obtain ⟨e, inside, rfl⟩ := List.mem_map.1 mem
    obtain ⟨ws, h⟩ := legible e inside
    exact h.lineEnd_not_mem_line
  have lines {bs : List Block} (ne : bs ≠ []) : (stream bs).map Elem.line ≠ [] := by
    cases bs with
    | nil => exact absurd rfl ne
    | cons => simp [stream, Block.elems]
  rw [blocksText_eq, blocksText_eq] at eq
  have same := intercalate_inj (by simp) (free legible) (free legible') (lines ne) (lines ne') eq
  refine map_eq_of_map_eq (fun e mem e' mem' line => ?_) same
  obtain ⟨ws, h⟩ := legible e mem
  obtain ⟨ws', h'⟩ := legible' e' mem'
  exact h.unnumbered_of_line h' line

end ImpSSA.IR
