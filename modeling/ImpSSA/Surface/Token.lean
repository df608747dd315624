/-!
# Tokens

A text is cut into tokens from left to right. Which words are keywords depends on what may come
next, and that depends only on the token before: where a command or an operand starts a whole word
is read and few words are keywords, while after a complete operand or command no name can follow, so
keywords need no word boundary there. `scan` records where every token starts.
-/

namespace ImpSSA.Surface

/-- A place in a text; lines and columns count from one. -/
structure Pos where
  line : Nat
  col : Nat
  deriving DecidableEq, Repr

/-- The place where a text starts. -/
def Pos.start : Pos := ⟨1, 1⟩

/-- The place after the character `c`; only a line feed starts a new line. -/
def Pos.next (p : Pos) (c : Char) : Pos := if c = '\n' then ⟨p.line + 1, 1⟩ else ⟨p.line, p.col + 1⟩

/-- The words and marks of a program. -/
inductive Token where
  | skipWord
  | ifWord
  | thenWord
  | elseWord
  | fiWord
  | whileWord
  | doWord
  | endWord
  | trueWord
  | falseWord
  | name (x : String)
  | int (n : Nat)
  | assign
  | semi
  | plus
  | minus
  | star
  | eq
  | le
  | and
  | not
  | lparen
  | rparen
  deriving DecidableEq, Repr

/-- What may come next: a command, an operand, or something that goes on after a complete one. -/
inductive Mode where
  | command
  | operand
  | join
  deriving DecidableEq, Repr

/-- What may come after a token. -/
def Token.next : Token → Mode
  | .thenWord | .elseWord | .doWord | .semi => .command
  | .ifWord | .whileWord | .assign | .plus | .minus | .star | .eq | .le | .and | .not | .lparen =>
    .operand
  | .skipWord | .fiWord | .endWord | .trueWord | .falseWord | .name _ | .int _ | .rparen => .join

/-- Blanks between tokens. -/
def isBlank (c : Char) : Bool :=
  c = ' ' || c = '\t' || c = '\x0c' || c = '\r' || c = '\n'

/-- Decimal digits. -/
def isDigit (c : Char) : Bool := '0' ≤ c && c ≤ '9'

/-- Characters that start a name. -/
def isNameStart (c : Char) : Bool :=
  ('A' ≤ c && c ≤ 'Z') || ('a' ≤ c && c ≤ 'z') || c = '_'

/-- Characters that go on a name. -/
def isNameChar (c : Char) : Bool := isNameStart c || isDigit c

/-- The number that decimal digits stand for. -/
def digitsValue (ds : List Char) : Nat :=
  ds.foldl (fun n d => 10 * n + (d.toNat - '0'.toNat)) 0

/-- The words that are not names where a command starts. -/
def commandWords : List (String × Token) :=
  [("SKIP", .skipWord), ("IF", .ifWord), ("WHILE", .whileWord)]

/-- The words that are not names where an operand starts. -/
def operandWords : List (String × Token) := [("true", .trueWord), ("false", .falseWord)]

/-- The marks that stand in front of an operand. -/
def operandMarks : List (String × Token) := [("-", .minus), ("(", .lparen), ("!", .not)]

/-- What goes on after a complete operand or command. -/
def joinMarks : List (String × Token) :=
  [(":=", .assign), (";", .semi), ("+", .plus), ("-", .minus), ("*", .star), ("==", .eq),
   ("<=", .le), ("&&", .and), (")", .rparen), ("THEN", .thenWord), ("ELSE", .elseWord),
   ("FI", .fiWord), ("DO", .doWord), ("END", .endWord)]

/-- The first entry of `marks` that `cs` starts with, and its length. -/
def readMark (marks : List (String × Token)) (cs : List Char) : Option (Token × Nat) :=
  (marks.find? fun (text, _) => text.toList.isPrefixOf cs).map fun (text, t) => (t, text.length)

/-- A whole word: one of `words`, or else a name. -/
def readWord (words : List (String × Token)) (cs : List Char) : Token × Nat :=
  let w := cs.takeWhile isNameChar
  (((words.lookup (String.ofList w)).getD (.name (String.ofList w))), w.length)

/-- The token that `cs` starts with where `mode` may come next, and its length. -/
def readToken (mode : Mode) (cs : List Char) : Option (Token × Nat) :=
  match mode, cs with
  | .join, _ => readMark joinMarks cs
  | _, [] => none
  | mode, c :: _ =>
    if isNameStart c then
      some (readWord (if mode = .command then commandWords else operandWords) cs)
    else if isDigit c then
      let ds := cs.takeWhile isDigit
      some (.int (digitsValue ds), ds.length)
    else
      readMark operandMarks cs

/-- The tokens of a text with the places where they start. -/
inductive Lexemes where
  /-- The text ends; `last` is where its last token starts. -/
  | finished (last : Pos)
  /-- No token starts at `pos`. -/
  | stray (pos : Pos)
  /-- A token, then the others. -/
  | next (t : Token) (pos : Pos) (rest : Lexemes)
  deriving DecidableEq, Repr

/-- Cuts a text into tokens. The next `skip` characters belong to a token already read, `comment`
says that a comment has started, and `last` is where the last token starts. -/
def scan (mode : Mode) (comment : Bool) (skip : Nat) (last pos : Pos) : List Char → Lexemes
  | [] => .finished last
  | c :: cs =>
    match skip with
    | skip + 1 => scan mode comment skip last (pos.next c) cs
    | 0 =>
      if comment then scan mode (c ≠ '\n') 0 last (pos.next c) cs
      else if isBlank c then scan mode false 0 last (pos.next c) cs
      else if c = '#' then scan mode true 0 last (pos.next c) cs
      else
        match readToken mode (c :: cs) with
        | none => .stray pos
        | some (t, n) => .next t pos (scan t.next false (n - 1) pos (pos.next c) cs)

/-- The tokens of a program. -/
def tokens (text : String) : Lexemes := scan .command false 0 .start .start text.toList

end ImpSSA.Surface
