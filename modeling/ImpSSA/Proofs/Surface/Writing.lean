import Mathlib.Data.Char
import Mathlib.Tactic.FinCases
import ImpSSA.Proofs.Surface.Grammar

/-!
# How programs are written

`Spells mode rest t cs` says that the characters `cs` are the token `t` where `mode` may come next and
`rest` follows, and `Written mode ts text` that the text is the tokens `ts` with blanks and comments
before, between and after them. Scanning finds the tokens of a written text (`Written.scan_eq`), so
that a text written with the tokens of a program is parsed to its tree (`parse_of_written`).
-/

namespace ImpSSA.Surface

/-- No character of the class comes first. -/
def Ends (p : Char → Bool) (rest : List Char) : Prop := ∀ c ∈ rest.head?, p c = false

/-- A letter or an underscore, then any number of these and digits. -/
def isIdentifier (x : String) : Bool :=
  match x.toList with
  | [] => false
  | c :: cs => isNameStart c && cs.all isNameChar

/-- The words that are not names. -/
def Mode.words : Mode → List (String × Token)
  | .command => commandWords
  | .operand => operandWords
  | .join => []

/-- The tokens that end without regard to what follows. -/
def Mode.marks : Mode → List (String × Token)
  | .command | .operand => operandMarks
  | .join => joinMarks

/-- The characters are the token in front of the rest. -/
inductive Spells (mode : Mode) (rest : List Char) : Token → List Char → Prop where
  | word {w t} :
    (w, t) ∈ mode.words →
    Ends isNameChar rest →
    Spells mode rest t w.toList
  | name {x} :
    mode ≠ .join →
    isIdentifier x = true →
    x ∉ mode.words.map (·.1) →
    Ends isNameChar rest →
    Spells mode rest (.name x) x.toList
  | int {d ds} :
    mode ≠ .join →
    (∀ c ∈ d :: ds, isDigit c = true) →
    Ends isDigit rest →
    Spells mode rest (.int (digitsValue (d :: ds))) (d :: ds)
  | mark {m t} :
    (m, t) ∈ mode.marks →
    Spells mode rest t m.toList

/-- The text is the tokens with blanks and comments around them. -/
inductive Written : Mode → List Token → List Char → Prop where
  | done {mode} :
    Written mode [] []
  | blank {mode ts c text} :
    isBlank c = true →
    Written mode ts text →
    Written mode ts (c :: text)
  | comment {mode ts cs text} :
    '\n' ∉ cs →
    Written mode ts text →
    Written mode ts ('#' :: (cs ++ '\n' :: text))
  | lastComment {mode cs} :
    '\n' ∉ cs →
    Written mode [] ('#' :: cs)
  | token {mode t ts cs text} :
    Spells mode text t cs →
    Written t.next ts text →
    Written mode (t :: ts) (cs ++ text)

/-! ## Reading one token -/

/-- No name starts with a digit. -/
lemma isNameStart_of_isDigit {d : Char} (digit : isDigit d = true) : isNameStart d = false := by
  refine Bool.eq_false_iff.2 fun start => ?_
  have upper : d ≤ '9' := of_decide_eq_true (Bool.and_eq_true_iff.1 digit).2
  have lower : '9' < d := by
    simp only [isNameStart, Bool.or_eq_true, Bool.and_eq_true, decide_eq_true_eq] at start
    rcases start with (⟨upperCase, _⟩ | ⟨lowerCase, _⟩) | rfl
    · exact lt_of_lt_of_le (by decide) upperCase
    · exact lt_of_lt_of_le (by decide) lowerCase
    · decide
  exact absurd upper (not_le.2 lower)

/-- No blank is part of a name. -/
lemma isBlank_of_isNameChar {c : Char} (part : isNameChar c = true) : isBlank c = false := by
  refine Bool.eq_false_iff.2 fun blank => ?_
  simp only [isBlank, Bool.or_eq_true, decide_eq_true_eq] at blank
  rcases blank with (((rfl | rfl) | rfl) | rfl) | rfl <;> cases part

/-- Characters of a kind are taken up to the first of another kind. -/
lemma takeWhile_append_ends {p : Char → Bool} {cs rest} (all : ∀ c ∈ cs, p c = true)
    (ends : Ends p rest) : (cs ++ rest).takeWhile p = cs := by
  have stops : rest.takeWhile p = [] := by
    cases rest with
    | nil => rfl
    | cons c rest => exact List.takeWhile_cons_of_neg (by simp [ends c rfl])
  rw [List.takeWhile_append_of_pos all, stops, List.append_nil]

/-- An identifier has a first character, and all of them are those of names. -/
lemma isIdentifier_cons {x : String} (identifier : isIdentifier x = true) :
    ∃ c cs, x.toList = c :: cs ∧ isNameStart c = true ∧ ∀ d ∈ c :: cs, isNameChar d = true := by
  unfold isIdentifier at identifier
  split at identifier
  · cases identifier
  · next c cs eq =>
    obtain ⟨start, rest⟩ := Bool.and_eq_true_iff.1 identifier
    refine ⟨c, cs, eq, start, List.forall_mem_cons.2 ⟨?_, List.all_eq_true.1 rest⟩⟩
    exact Bool.or_eq_true_iff.2 (.inl start)

/-- A whole word is read at once. -/
lemma readToken_word {mode : Mode} {x rest} (early : mode ≠ .join)
    (identifier : isIdentifier x = true) (ends : Ends isNameChar rest) :
    readToken mode (x.toList ++ rest) =
      some ((mode.words.lookup x).getD (.name x), x.toList.length) := by
  obtain ⟨c, cs, eq, start, all⟩ := isIdentifier_cons identifier
  have whole : (x.toList ++ rest).takeWhile isNameChar = x.toList :=
    takeWhile_append_ends (eq ▸ all) ends
  have word (words : List (String × Token)) : readWord words (x.toList ++ rest) =
      ((words.lookup x).getD (.name x), x.toList.length) := by
    rw [readWord, whole, String.ofList_toList]
  rw [eq] at word ⊢
  cases mode with
  | join => exact absurd rfl early
  | command | operand => exact (if_pos start).trans (congrArg some (word _))

/-- Digits are read as a number. -/
lemma readToken_digits {mode : Mode} {d ds rest} (early : mode ≠ .join)
    (all : ∀ c ∈ d :: ds, isDigit c = true) (ends : Ends isDigit rest) :
    readToken mode (d :: ds ++ rest) = some (.int (digitsValue (d :: ds)), (d :: ds).length) := by
  have digit : isDigit d = true := all d List.mem_cons_self
  have other : isNameStart d = false := isNameStart_of_isDigit digit
  have whole : (d :: (ds ++ rest)).takeWhile isDigit = d :: ds := takeWhile_append_ends all ends
  cases mode with
  | join => exact absurd rfl early
  | command | operand => simp only [List.cons_append, readToken, other, digit, whole]; rfl

/-- The tokens that are not names start like one. -/
lemma Mode.word_mem {mode : Mode} {w t} (mem : (w, t) ∈ mode.words) :
    mode ≠ .join ∧ isIdentifier w = true ∧ mode.words.lookup w = some t := by
  cases mode with
  | command | operand => fin_cases mem <;> exact ⟨nofun, rfl, rfl⟩
  | join => cases mem

/-- A mark is read whatever follows it. -/
lemma readToken_mark {mode : Mode} {m t rest} (mem : (m, t) ∈ mode.marks) :
    readToken mode (m.toList ++ rest) = some (t, m.toList.length) := by
  cases mode with
  | command | operand | join => fin_cases mem <;> rfl

/-- What is spelled is read. -/
lemma Spells.readToken_eq {mode rest t cs} (spells : Spells mode rest t cs) :
    readToken mode (cs ++ rest) = some (t, cs.length) := by
  cases spells with
  | word mem ends =>
    obtain ⟨early, identifier, found⟩ := Mode.word_mem mem
    rw [readToken_word early identifier ends, found]
    rfl
  | name early identifier free ends =>
    have unknown := List.lookup_eq_none_iff.2 fun p mem =>
      bne_iff_ne.2 fun eq => free (List.mem_map.2 ⟨p, mem, Eq.symm eq⟩)
    rw [readToken_word early identifier ends, unknown]
    rfl
  | int early all ends => exact readToken_digits early all ends
  | mark mem => exact readToken_mark mem

/-- A token starts with a character that is neither a blank nor starts a comment. -/
lemma Spells.cons {mode rest t cs} (spells : Spells mode rest t cs) :
    ∃ c cs', cs = c :: cs' ∧ isBlank c = false ∧ c ≠ '#' := by
  have ofNameChar {c cs'} (part : isNameChar c = true) :
      ∃ d ds, (c :: cs' : List Char) = d :: ds ∧ isBlank d = false ∧ d ≠ '#' :=
    ⟨c, cs', rfl, isBlank_of_isNameChar part, by rintro rfl; cases part⟩
  have ofIdentifier {x : String} (identifier : isIdentifier x = true) :
      ∃ d ds, x.toList = d :: ds ∧ isBlank d = false ∧ d ≠ '#' := by
    obtain ⟨c, cs, eq, _, all⟩ := isIdentifier_cons identifier
    rw [eq]
    exact ofNameChar (all c List.mem_cons_self)
  cases spells with
  | word mem => exact ofIdentifier (Mode.word_mem mem).2.1
  | name _ identifier => exact ofIdentifier identifier
  | int _ all =>
    exact ofNameChar (Bool.or_eq_true_iff.2 (.inr (all _ List.mem_cons_self)))
  | mark mem =>
    cases mode with
    | command | operand | join => fin_cases mem <;> exact ⟨_, _, rfl, rfl, by decide⟩

/-! ## Scanning -/

/-- The characters of a token already read are passed over. -/
lemma scan_append {mode comment last pos} (cs text : List Char) :
    scan mode comment cs.length last pos (cs ++ text) =
      scan mode comment 0 last (cs.foldl Pos.next pos) text := by
  induction cs generalizing pos with
  | nil => rfl
  | cons c cs ih => exact ih

/-- A comment goes on to the end of its line. -/
lemma scan_comment {mode last pos} {cs : List Char} (text : List Char) (line : '\n' ∉ cs) :
    scan mode true 0 last pos (cs ++ text) =
      scan mode true 0 last (cs.foldl Pos.next pos) text := by
  induction cs generalizing pos with
  | nil => rfl
  | cons c cs ih =>
    obtain ⟨ne, line⟩ := not_or.1 (List.mem_cons.not.1 line)
    have inside : scan mode true 0 last pos (c :: (cs ++ text)) =
        scan mode true 0 last (pos.next c) (cs ++ text) := by
      simp [scan, Ne.symm ne]
    exact inside.trans (ih line)

/-- Scanning finds the tokens of a written text. -/
lemma Written.scan_eq {mode ts text} (written : Written mode ts text) (last pos : Pos) :
    ∃ last' lts, scan mode false 0 last pos text = .ofList last' lts ∧ lts.map (·.1) = ts := by
  induction written generalizing last pos with
  | done => exact ⟨last, [], rfl, rfl⟩
  | @blank mode ts c text blank _ ih =>
    obtain ⟨last', lts, scanned, tokens⟩ := ih last (pos.next c)
    refine ⟨last', lts, ?_, tokens⟩
    rw [scan, if_neg Bool.false_ne_true, if_pos blank, scanned]
  | @comment mode ts cs text line _ ih =>
    obtain ⟨last', lts, scanned, tokens⟩ :=
      ih last ((cs.foldl Pos.next (pos.next '#')).next '\n')
    exact ⟨last', lts, (scan_comment ('\n' :: text) line).trans scanned, tokens⟩
  | @lastComment mode cs line =>
    have ended : scan mode true 0 last (pos.next '#') (cs ++ []) = .finished last :=
      scan_comment [] line
    rw [List.append_nil] at ended
    exact ⟨last, [], ended, rfl⟩
  | @token mode t ts cs text spells _ ih =>
    have read := spells.readToken_eq
    obtain ⟨c, cs, rfl, visible, plain⟩ := spells.cons
    obtain ⟨last', lts, scanned, tokens⟩ := ih pos (cs.foldl Pos.next (pos.next c))
    refine ⟨last', (t, pos) :: lts, ?_, congrArg (t :: ·) tokens⟩
    -- the mode is the next one as soon as the first character is read, and the others are skipped
    rw [List.cons_append] at read ⊢
    simp only [scan, visible, plain, read, Bool.false_eq_true, if_false]
    rw [List.length_cons, Nat.add_sub_cancel, scan_append, scanned]
    rfl

/-- A text that is written with the tokens of a program is parsed to its tree. -/
lemma parse_of_written {text : String} {ts e} (phrase : Phrase .command ts e)
    (written : Written .command ts text.toList) (ws : Node.WellSorted .command e) :
    Node.parse text = .ok e := by
  obtain ⟨last, lts, scanned, rfl⟩ := written.scan_eq .start .start
  obtain ⟨c, read, rfl⟩ := phrase.read_program last
  have program : readProgram text = .ok c := by rw [readProgram, tokens, scanned, read]
  rw [Node.parse, program]
  exact Com.toNode_eq ws

end ImpSSA.Surface
