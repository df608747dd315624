import ImpSSA.Proofs.Surface.Writing

/-!
# Tokens and what stands between them

`LaidOut apart prev ts text` says that the text is the tokens `ts` with separators before, between and
after them, at least one blank or comment between neighbours that must be `apart`. Whether a text can be
scanned depends on two things only (`written_iff`): each token is allowed where the token before it puts
it, and a token that runs on as long as letters and digits follow stands apart from words
(`Token.runsInto`). Everything that scanning finds is written in the text (`written_of_scan`).
-/

namespace ImpSSA.Surface

/-- Blanks, and comments up to the end of their lines. -/
inductive Separator : List Char → Prop where
  | nil :
    Separator []
  | blank {c cs} :
    c ∈ [' ', '\t', '\x0c', '\r', '\n'] →
    Separator cs →
    Separator (c :: cs)
  | comment {line cs} :
    '\n' ∉ line →
    Separator cs →
    Separator ('#' :: (line ++ '\n' :: cs))

/-- How a token is written, unless it is a number. -/
def Token.text? : Token → Option String
  | .skipWord => some "SKIP"
  | .ifWord => some "IF"
  | .thenWord => some "THEN"
  | .elseWord => some "ELSE"
  | .fiWord => some "FI"
  | .whileWord => some "WHILE"
  | .doWord => some "DO"
  | .endWord => some "END"
  | .trueWord => some "true"
  | .falseWord => some "false"
  | .name x => some x
  | .int _ => none
  | .assign => some ":="
  | .semi => some ";"
  | .plus => some "+"
  | .minus => some "-"
  | .star => some "*"
  | .eq => some "=="
  | .le => some "<="
  | .and => some "&&"
  | .not => some "!"
  | .lparen => some "("
  | .rparen => some ")"

/-- The characters of a token; a number may have zeros in front. -/
inductive Token.Spelled : Token → List Char → Prop where
  | text {t : Token} {s : String} :
    t.text? = some s →
    Spelled t s.toList
  | digits {ds : List Char} :
    ds ≠ [] →
    (∀ c ∈ ds, isDigit c = true) →
    Spelled (.int (Nat.ofDigitChars 10 ds 0)) ds

/-- Names, numbers and keywords. -/
def Token.isWord : Token → Bool
  | .skipWord | .ifWord | .thenWord | .elseWord | .fiWord | .whileWord | .doWord | .endWord
  | .trueWord | .falseWord | .name _ | .int _ => true
  | .assign | .semi | .plus | .minus | .star | .eq | .le | .and | .not | .lparen | .rparen => false

/-- The tokens that go on as long as letters, digits and underscores follow. -/
def Token.isOpen : Token → Bool
  | .skipWord | .ifWord | .whileWord | .trueWord | .falseWord | .name _ => true
  | _ => false

/-- Both tokens are words. -/
def Token.bothWords (t u : Token) : Bool := t.isWord && u.isWord

/-- The second token would be read as part of the first one. -/
def Token.runsInto (t u : Token) : Bool := t.isOpen && u.isWord

/-- A token that may go on is a word. -/
lemma Token.isWord_of_isOpen {t : Token} (goesOn : t.isOpen = true) : t.isWord = true := by
  cases t with
  | skipWord | ifWord | whileWord | trueWord | falseWord | name => rfl
  | _ => cases goesOn

/-- Tokens that run into each other are words both. -/
lemma Token.bothWords_of_runsInto {t u : Token} (runs : t.runsInto u = true) : t.bothWords u = true := by
  obtain ⟨goesOn, word⟩ := Bool.and_eq_true_iff.1 runs
  exact Bool.and_eq_true_iff.2 ⟨isWord_of_isOpen goesOn, word⟩

/-- The text is the tokens with separators around them, after the token `prev`. -/
inductive LaidOut (apart : Token → Token → Bool) :
    Option Token → List Token → List Char → Prop where
  | done {prev sep} :
    Separator sep →
    LaidOut apart prev [] sep
  | lastComment {prev sep line} :
    Separator sep →
    '\n' ∉ line →
    LaidOut apart prev [] (sep ++ '#' :: line)
  | token {prev sep t cs ts text} :
    Separator sep →
    (∀ p ∈ prev, apart p t = true → sep ≠ []) →
    t.Spelled cs →
    LaidOut apart (some t) ts text →
    LaidOut apart prev (t :: ts) (sep ++ (cs ++ text))

/-- Fewer neighbours need a separator. -/
lemma LaidOut.mono {apart apart' : Token → Token → Bool} {prev ts text}
    (laid : LaidOut apart prev ts text) (fewer : ∀ t u, apart' t u = true → apart t u = true) :
    LaidOut apart' prev ts text := by
  induction laid with
  | done sep => exact .done sep
  | lastComment sep line => exact .lastComment sep line
  | token sep gap spelled _ ih =>
    exact .token sep (fun p mem apart => gap p mem (fewer _ _ apart)) spelled ih

/-! ## Where tokens are allowed -/

/-- The token can be read where the mode is. -/
def Mode.Allows (mode : Mode) : Token → Prop
  | .name x => mode ≠ .join ∧ isIdentifier x = true ∧ x ∉ mode.words.map (·.1)
  | .int _ => mode ≠ .join
  | t => t ∈ mode.words.map (·.2) ∨ t ∈ mode.marks.map (·.2)

/-- Each token can be read where the one before puts it. -/
def Mode.AllowsAll : Mode → List Token → Prop
  | _, [] => True
  | mode, t :: ts => mode.Allows t ∧ t.next.AllowsAll ts

/-- The words of a mode are spelled as listed, may go on, and are allowed. -/
lemma Mode.mem_words {mode : Mode} {w t} (mem : (w, t) ∈ mode.words) :
    t.text? = some w ∧ t.isOpen = true ∧ mode.Allows t := by
  cases mode with
  | command | operand => fin_cases mem <;> exact ⟨rfl, rfl, .inl (by decide)⟩
  | join => cases mem

/-- The marks of a mode are spelled as listed, do not go on, and are allowed. -/
lemma Mode.mem_marks {mode : Mode} {m t} (mem : (m, t) ∈ mode.marks) :
    t.text? = some m ∧ t.isOpen = false ∧ mode.Allows t := by
  cases mode with
  | command | operand | join => fin_cases mem <;> exact ⟨rfl, rfl, .inr (by decide)⟩

/-- A token is a name or a number, or it stands in a table. -/
lemma Mode.Allows.fixed {mode : Mode} {t s} (allows : mode.Allows t) (text : t.text? = some s) :
    (∃ x, t = .name x) ∨ (s, t) ∈ mode.words ∨ (s, t) ∈ mode.marks := by
  have table (found : t ∈ mode.words.map (·.2) ∨ t ∈ mode.marks.map (·.2)) :
      (s, t) ∈ mode.words ∨ (s, t) ∈ mode.marks := by
    rcases found with found | found
    · obtain ⟨⟨w, t⟩, mem, rfl⟩ := List.mem_map.1 found
      cases (Mode.mem_words mem).1.symm.trans text
      exact .inl mem
    · obtain ⟨⟨m, t⟩, mem, rfl⟩ := List.mem_map.1 found
      cases (Mode.mem_marks mem).1.symm.trans text
      exact .inr mem
  cases t with
  | name x => exact .inl ⟨x, rfl⟩
  | int n => cases text
  | _ => exact .inr (table allows)

/-- A token that is spelled is allowed. -/
lemma Spells.allows {mode rest t cs} (spells : Spells mode rest t cs) : mode.Allows t := by
  cases spells with
  | word mem => exact (Mode.mem_words mem).2.2
  | name early identifier free => exact ⟨early, identifier, free⟩
  | int early => exact early
  | mark mem => exact (Mode.mem_marks mem).2.2

/-- A token is spelled with its own characters. -/
lemma Spells.spelled {mode rest t cs} (spells : Spells mode rest t cs) : t.Spelled cs := by
  cases spells with
  | word mem => exact .text (Mode.mem_words mem).1
  | name => exact .text rfl
  | int _ all => exact .digits (List.cons_ne_nil _ _) all
  | mark mem => exact .text (Mode.mem_marks mem).1

/-- An open token ends where no letter, digit or underscore follows. -/
lemma Spells.ends {mode rest t cs} (spells : Spells mode rest t cs) (goesOn : t.isOpen = true) :
    Ends isNameChar rest := by
  cases spells with
  | word _ ends => exact ends
  | name _ _ _ ends => exact ends
  | int => cases goesOn
  | mark mem =>
    rw [(Mode.mem_marks mem).2.1] at goesOn
    cases goesOn

/-- A token that is allowed is read if it ends where its characters do. -/
lemma Token.Spelled.spells {t : Token} {mode cs rest} (spelled : t.Spelled cs)
    (allows : mode.Allows t) (ends : t.isOpen = true → Ends isNameChar rest)
    (number : ∀ n, t = .int n → Ends isDigit rest) : Spells mode rest t cs := by
  cases spelled with
  | text eq =>
    rcases allows.fixed eq with ⟨x, rfl⟩ | word | mark
    · obtain ⟨early, identifier, free⟩ := allows
      cases eq
      exact .name early identifier free (ends rfl)
    · exact .word word (ends (Mode.mem_words word).2.1)
    · exact .mark mark
  | digits nonempty all =>
    cases cs with
    | nil => exact absurd rfl nonempty
    | cons d ds => exact .int allows all (number _ rfl)

/-! ## Separators -/

/-- Separators one after the other. -/
lemma Separator.append {cs ds} (first : Separator cs) (second : Separator ds) :
    Separator (cs ++ ds) := by
  induction first with
  | nil => exact second
  | blank mem _ ih => exact .blank mem ih
  | comment line _ ih =>
    rw [List.cons_append, List.append_assoc]
    exact .comment line ih

/-- A separator may stand in front. -/
lemma Separator.written {sep mode ts text} (separator : Separator sep)
    (written : Written mode ts text) : Written mode ts (sep ++ text) := by
  induction separator with
  | nil => exact written
  | blank mem _ ih => exact .blank (by simpa [isBlank, or_assoc] using mem) ih
  | comment line _ ih =>
    rw [List.cons_append, List.append_assoc]
    exact .comment line ih

/-- A separator ends every word. -/
lemma Separator.ends {sep rest} (separator : Separator sep) (nonempty : sep ≠ []) :
    Ends isNameChar (sep ++ rest) := by
  cases separator with
  | nil => exact absurd rfl nonempty
  | blank mem =>
    rintro c ⟨⟩
    fin_cases mem <;> rfl
  | comment =>
    rintro c ⟨⟩
    rfl

/-- More may be put in front of a layout. -/
lemma LaidOut.pad {apart sep ts text} (prev : Option Token) (laid : LaidOut apart none ts text)
    (separator : Separator sep) (nonempty : sep ≠ []) : LaidOut apart prev ts (sep ++ text) := by
  cases laid with
  | done rest => exact .done (separator.append rest)
  | lastComment rest line =>
    rw [← List.append_assoc]
    exact .lastComment (separator.append rest) line
  | token rest _ spelled laid =>
    rw [← List.append_assoc]
    refine .token (separator.append rest) (fun _ _ _ => ?_) spelled laid
    exact List.append_ne_nil_of_left_ne_nil nonempty _

/-! ## Layouts are what can be scanned -/

/-- A mark does not start like a word. -/
lemma Token.Spelled.ends {t : Token} {cs rest} (spelled : t.Spelled cs) (mark : t.isWord = false) :
    Ends isNameChar (cs ++ rest) := by
  cases spelled with
  | digits => cases mark
  | text eq =>
    cases t with
    | assign | semi | plus | minus | star | eq | le | and | not | lparen | rparen =>
      cases eq
      rintro c ⟨⟩
      rfl
    | _ => cases mark

/-- What goes on after an operand or a command does not start with a digit. -/
lemma Mode.Allows.ends_digits {t : Token} {cs rest} (allows : Mode.join.Allows t)
    (spelled : t.Spelled cs) : Ends isDigit (cs ++ rest) := by
  cases spelled with
  | digits => exact absurd rfl allows
  | text eq =>
    rcases allows.fixed eq with ⟨x, rfl⟩ | word | mark
    · exact absurd rfl allows.1
    · cases word
    · fin_cases mark <;> rintro c ⟨⟩ <;> rfl

/-- Where a separator is missing the next token ends the one before. -/
lemma LaidOut.ends {apart p ts text} {q : Char → Bool} (laid : LaidOut apart (some p) ts text)
    (part : ∀ c, q c = true → isNameChar c = true)
    (next : ∀ {t us cs rest}, ts = t :: us → apart p t = false → t.Spelled cs → Ends q (cs ++ rest)) :
    Ends q text := by
  have weaken {rest} (ends : Ends isNameChar rest) : Ends q rest := fun c mem =>
    Bool.eq_false_iff.2 fun holds => Bool.eq_false_iff.1 (ends c mem) (part c holds)
  cases laid with
  | done separator =>
    cases text with
    | nil => exact nofun
    | cons c sep =>
      have ends : Ends isNameChar (c :: sep ++ []) := separator.ends (List.cons_ne_nil c sep)
      rw [List.append_nil] at ends
      exact weaken ends
  | @lastComment _ sep line separator =>
    cases sep with
    | nil =>
      apply weaken
      rintro c ⟨⟩
      rfl
    | cons c sep => exact weaken (separator.ends (List.cons_ne_nil c sep))
  | @token _ sep t cs ts text separator gap spelled =>
    cases sep with
    | nil =>
      have together : apart p t = false := Bool.eq_false_iff.2 fun apart => absurd rfl (gap p rfl apart)
      show Ends q (cs ++ text)
      exact next rfl together spelled
    | cons c sep => exact weaken (separator.ends (List.cons_ne_nil c sep))

/-- Tokens that are laid out apart are scanned where they are allowed. -/
lemma LaidOut.written {mode prev ts text} (laid : LaidOut Token.runsInto prev ts text)
    (allows : mode.AllowsAll ts) : Written mode ts text := by
  induction laid generalizing mode with
  | @done _ sep separator =>
    have written := separator.written (.done : Written mode [] [])
    rwa [List.append_nil] at written
  | lastComment separator line => exact separator.written (.lastComment line)
  | @token _ _ t cs ts text separator _ spelled laid ih =>
    obtain ⟨here, rest⟩ := allows
    apply separator.written
    apply Written.token _ (ih rest)
    apply spelled.spells here
    · intro goesOn
      refine laid.ends (fun _ => id) fun _ free spelled => spelled.ends ?_
      simpa [Token.runsInto, goesOn] using free
    · rintro n rfl
      refine laid.ends (fun c digit => Bool.or_eq_true_iff.2 (.inr digit)) ?_
      rintro u us cs' rest' rfl _ spelled
      exact Mode.Allows.ends_digits rest.1 spelled

/-- A word starts with a letter, a digit or an underscore. -/
lemma Spells.not_ends {mode rest t cs} (spells : Spells mode rest t cs) (word : t.isWord = true) :
    ¬ Ends isNameChar (cs ++ rest) := by
  have ofIdentifier {x : String} (identifier : isIdentifier x = true) :
      ¬ Ends isNameChar (x.toList ++ rest) := by
    obtain ⟨c, cs, eq, _, all⟩ := isIdentifier_cons identifier
    rw [eq]
    intro ends
    exact Bool.eq_false_iff.1 (ends c rfl) (all c List.mem_cons_self)
  cases spells with
  | word mem => exact ofIdentifier (Mode.word_mem mem).2.1
  | name _ identifier => exact ofIdentifier identifier
  | @int d ds _ all =>
    intro ends
    have digit : isDigit d = true := all d List.mem_cons_self
    exact Bool.eq_false_iff.1 (ends d rfl) (Bool.or_eq_true_iff.2 (.inr digit))
  | mark mem =>
    cases mode with
    | command | operand => fin_cases mem <;> cases word
    | join => fin_cases mem <;> cases word <;> exact ofIdentifier rfl

/-- Tokens that were scanned were laid out apart, each where it is allowed. -/
lemma Written.laidOut {mode ts text} (written : Written mode ts text) (prev : Option Token)
    (ends : ∀ p ∈ prev, p.isOpen = true → Ends isNameChar text) :
    mode.AllowsAll ts ∧ LaidOut Token.runsInto prev ts text := by
  induction written generalizing prev with
  | done => exact ⟨trivial, .done .nil⟩
  | blank blank _ ih =>
    obtain ⟨allows, laid⟩ := ih none nofun
    refine ⟨allows, laid.pad prev (.blank ?_ .nil) (List.cons_ne_nil _ _)⟩
    simpa [isBlank, or_assoc] using blank
  | @comment mode ts line text free _ ih =>
    obtain ⟨allows, laid⟩ := ih none nofun
    have padded := laid.pad prev (.comment free .nil) (List.cons_ne_nil _ _)
    exact ⟨allows, by simpa using padded⟩
  | lastComment free => exact ⟨trivial, .lastComment .nil free⟩
  | @token mode t ts cs text spells _ ih =>
    obtain ⟨allows, laid⟩ := ih (some t) (by
      rintro p ⟨⟩
      exact spells.ends)
    refine ⟨⟨spells.allows, allows⟩, .token .nil ?_ spells.spelled laid⟩
    intro p mem runs
    obtain ⟨goesOn, word⟩ := Bool.and_eq_true_iff.1 runs
    exact absurd (ends p mem goesOn) (spells.not_ends word)

/-- What can be scanned, for what stands before it. -/
lemma written_iff {mode ts text} :
    Written mode ts text ↔ mode.AllowsAll ts ∧ LaidOut Token.runsInto none ts text :=
  ⟨fun written => written.laidOut none nofun, fun ⟨allows, laid⟩ => laid.written allows⟩

/-! ## Scanning finds what is written -/

/-- What is left of a word ends it. -/
lemma ends_dropWhile (p : Char → Bool) (cs : List Char) : Ends p (cs.dropWhile p) := by
  intro c mem
  have holds := List.head?_dropWhile_not p cs
  rw [Option.mem_def.1 mem] at holds
  exact holds

/-- A mark that is read is spelled by the characters it takes. -/
lemma spells_of_readMark {mode : Mode} {cs t n} (read : readMark mode.marks cs = some (t, n)) :
    ∃ w rest, cs = w ++ rest ∧ w.length = n ∧ Spells mode rest t w := by
  obtain ⟨⟨m, t⟩, found, eq⟩ := Option.map_eq_some_iff.1 read
  cases eq
  have first : m.toList.isPrefixOf cs = true := by simpa using List.find?_some found
  obtain ⟨rest, rfl⟩ := List.isPrefixOf_iff_prefix.1 first
  exact ⟨m.toList, rest, rfl, String.length_toList, .mark (List.mem_of_find?_eq_some found)⟩

/-- A word that is read is spelled by the characters it takes. -/
lemma spells_of_readWord {mode : Mode} {c} (cs : List Char) (early : mode ≠ .join)
    (start : isNameStart c = true) :
    ∃ w rest, c :: cs = w ++ rest ∧ w.length = (readWord mode.words (c :: cs)).2 ∧
      Spells mode rest (readWord mode.words (c :: cs)).1 w := by
  have part : isNameChar c = true := Bool.or_eq_true_iff.2 (.inl start)
  have whole : (c :: cs).takeWhile isNameChar = c :: cs.takeWhile isNameChar :=
    List.takeWhile_cons_of_pos part
  have ends : Ends isNameChar ((c :: cs).dropWhile isNameChar) := ends_dropWhile _ _
  refine ⟨_, _, List.takeWhile_append_dropWhile.symm, rfl, ?_⟩
  rw [readWord, whole]
  generalize word : String.ofList (c :: cs.takeWhile isNameChar) = x
  have letters : c :: cs.takeWhile isNameChar = x.toList := by rw [← word, String.toList_ofList]
  have identifier : isIdentifier x = true := by
    rw [isIdentifier, ← letters]
    exact Bool.and_eq_true_iff.2 ⟨start, List.all_takeWhile⟩
  rw [letters]
  cases found : mode.words.lookup x with
  | none =>
    refine .name early identifier ?_ ends
    intro listed
    obtain ⟨⟨w, t⟩, mem, rfl⟩ := List.mem_map.1 listed
    exact absurd rfl (bne_iff_ne.1 (List.lookup_eq_none_iff.1 found (w, t) mem))
  | some t =>
    obtain ⟨before, after, split, _⟩ := List.lookup_eq_some_iff.1 found
    exact .word (by simp [split]) ends

/-- Where a command or an operand starts. -/
lemma readToken_early {mode : Mode} {c cs} (early : mode ≠ .join) :
    readToken mode (c :: cs) =
      if isNameStart c then some (readWord mode.words (c :: cs))
      else if isDigit c then
        some (.int (digitsValue ((c :: cs).takeWhile isDigit)), ((c :: cs).takeWhile isDigit).length)
      else readMark mode.marks (c :: cs) := by
  cases mode with
  | command => rfl
  | operand => rfl
  | join => exact absurd rfl early

/-- What is read is spelled at the start of the text. -/
lemma spells_of_readToken {mode cs t n} (read : readToken mode cs = some (t, n)) :
    ∃ w rest, cs = w ++ rest ∧ w.length = n ∧ Spells mode rest t w := by
  by_cases early : mode = .join
  · subst early
    exact spells_of_readMark read
  cases cs with
  | nil => cases mode <;> cases read
  | cons c cs =>
    rw [readToken_early early] at read
    split at read
    · next start =>
      obtain ⟨w, rest, split, length, spells⟩ := spells_of_readWord cs early start
      cases read
      exact ⟨w, rest, split, length, spells⟩
    · split at read
      · next digit =>
        cases read
        refine ⟨_, _, List.takeWhile_append_dropWhile.symm, rfl, ?_⟩
        have all : ∀ d ∈ (c :: cs).takeWhile isDigit, isDigit d = true :=
          List.all_eq_true.1 List.all_takeWhile
        rw [List.takeWhile_cons_of_pos digit] at all ⊢
        exact .int early all (ends_dropWhile _ _)
      · exact spells_of_readMark read

/-- Only an empty list of tokens is finished at once. -/
lemma Lexemes.ofList_eq_finished {last last'} {lts : List (Token × Pos)}
    (eq : Lexemes.finished last = .ofList last' lts) : lts = [] := by
  cases lts with
  | nil => rfl
  | cons => cases eq

/-- Everything that scanning finds is written in the text. -/
lemma written_of_scan {mode last pos text last'} {lts : List (Token × Pos)}
    (scanned : scan mode false 0 last pos text = .ofList last' lts) :
    Written mode (lts.map (·.1)) text := by
  -- a token or a comment is passed over as a whole, so the induction is on the length
  induction size : text.length using Nat.strongRecOn generalizing mode last pos text lts with
  | ind n ih =>
  cases text with
  | nil =>
    obtain rfl := Lexemes.ofList_eq_finished scanned
    exact .done
  | cons c text =>
    by_cases blank : isBlank c = true
    · rw [scan, if_neg Bool.false_ne_true, if_pos blank] at scanned
      exact .blank blank (ih text.length (by simp [← size]) scanned rfl)
    by_cases hash : c = '#'
    · subst hash
      have inside : scan mode true 0 last (pos.next '#') text = .ofList last' lts := scanned
      by_cases line : '\n' ∈ text
      · obtain ⟨cs, rest, rfl, free⟩ := List.eq_append_cons_of_mem line
        rw [scan_comment _ free] at inside
        have shorter : rest.length < n := by
          simp only [← size, List.length_append, List.length_cons]
          omega
        exact .comment free (ih rest.length shorter inside rfl)
      · rw [← List.append_nil text, scan_comment _ line] at inside
        obtain rfl := Lexemes.ofList_eq_finished inside
        exact .lastComment line
    simp only [scan, blank, hash, Bool.false_eq_true, if_false] at scanned
    split at scanned
    · cases lts <;> cases scanned
    · next t n read =>
      obtain ⟨w, rest, split, rfl, spells⟩ := spells_of_readToken read
      obtain ⟨d, w, rfl, _⟩ := spells.cons
      obtain ⟨rfl, rfl⟩ := List.cons.inj (split.trans (List.cons_append ..))
      rw [List.length_cons, Nat.add_sub_cancel, scan_append] at scanned
      cases lts with
      | nil => cases scanned
      | cons lt lts =>
        obtain ⟨rfl, rfl, scanned⟩ := Lexemes.next.inj scanned
        have shorter : rest.length < n := by
          simp only [← size, List.length_append, List.length_cons]
          omega
        exact .token spells (ih rest.length shorter scanned rfl)

end ImpSSA.Surface
