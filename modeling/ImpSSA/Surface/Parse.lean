import ImpSSA.Surface.Tree

/-!
# Parsing

A parser that takes one token at a time. Expressions and commands still open lie on two stacks, the
innermost first; a token closes the open operators that bind at least as tightly as it does and then
opens its own, so the first token that cannot go on any program is the one `State.step` refuses.
Comparisons do not associate, `!` binds looser than they do, and a sequence nests to the right. The
limits that a runtime puts on the digits of a number in text and on the depth of recursion are left out:
literals of any length and programs of any depth are read.
-/

namespace ImpSSA.Surface

/-- A complete operand: its expression, and where it starts with parentheses counted. -/
structure Operand where
  expr : Expr
  start : Pos
  deriving DecidableEq, Repr

/-- An operator or parenthesis waiting for its right operand. -/
inductive Frame where
  | factor (l : Operand)
  | term (op : ArithOp) (l : Operand)
  | compare (op : CmpOp) (l : Operand)
  | negate (pos : Pos)
  | conj (l : Operand)
  | paren (pos : Pos)
  deriving DecidableEq, Repr

/-- How tightly an open operator binds; nothing binds across a parenthesis. -/
def Frame.level : Frame → Nat
  | .factor _ => 5
  | .term .. => 4
  | .compare .. => 3
  | .negate _ => 2
  | .conj _ => 1
  | .paren _ => 0

/-- The operand of a binary operator; it starts where its left operand starts. -/
def Operand.binary (op : BinOp) (l r : Operand) : Operand :=
  ⟨.binary l.start op l.expr r.expr, l.start⟩

/-- Completes an open operator with its right operand. -/
def Frame.complete : Frame → Operand → Operand
  | .factor l, r => .binary (.arith .times) l r
  | .term op l, r => .binary (.arith op) l r
  | .compare op l, r => .binary (.cmp op) l r
  | .negate pos, r => ⟨.not pos r.expr, pos⟩
  | .conj l, r => .binary .and l r
  | .paren pos, r => ⟨r.expr, pos⟩

/-- Completes the open operators that bind at least as tightly as `level`. -/
def collapse (level : Nat) (x : Operand) : List Frame → Operand × List Frame
  | [] => (x, [])
  | f :: fs => if level ≤ f.level then collapse level (f.complete x) fs else (x, f :: fs)

/-- What an expression is read for. -/
inductive Purpose where
  | assign (x : String)
  | cond
  | loop
  deriving DecidableEq, Repr

/-- A command waiting for the command now read. -/
inductive Pending where
  | after (c : Com)
  | thenPart (b : Expr)
  | elsePart (b : Expr) (c : Com)
  | body (b : Expr)
  deriving DecidableEq, Repr

/-- What has been read, by what must come next. -/
inductive State where
  /-- A command. -/
  | command (ks : List Pending)
  /-- The sign of assignment to `x`. -/
  | target (x : String) (ks : List Pending)
  /-- An operand. -/
  | operand (fs : List Frame) (p : Purpose) (ks : List Pending)
  /-- The digits of a negative literal whose sign is at `pos`. -/
  | digits (pos : Pos) (fs : List Frame) (p : Purpose) (ks : List Pending)
  /-- An operator after the operand `x`, or the end of the expression. -/
  | operator (x : Operand) (fs : List Frame) (p : Purpose) (ks : List Pending)
  /-- What goes on after the command `c`. -/
  | done (c : Com) (ks : List Pending)
  deriving DecidableEq, Repr

/-- The sequence that ends with `c`, and the commands waiting for it. -/
def closeSequence (c : Com) : List Pending → Com × List Pending
  | .after d :: ks => closeSequence (.seq d c) ks
  | ks => (c, ks)

/-- The whole expression that ends with `x`, unless a parenthesis is open. -/
def closeExpr (x : Operand) (fs : List Frame) : Option Expr :=
  match collapse 1 x fs with
  | (y, []) => some y.expr
  | (_, _ :: _) => none

/-- The complete command of a state, if the expression now read can end an assignment. -/
def State.complete? : State → Option (Com × List Pending)
  | .done c ks => some (c, ks)
  | .operator x fs (.assign name) ks => (closeExpr x fs).map fun e => (.assign name e, ks)
  | _ => none

/-- Whether a negation may start after the open operators `fs`. -/
def negationFits : List Frame → Bool
  | [] => true
  | f :: _ => f.level ≤ 2

/-- Opens a comparison unless one is open. -/
def openComparison (op : CmpOp) (x : Operand) (fs : List Frame) : Option (List Frame) :=
  match collapse 4 x fs with
  | (_, .compare .. :: _) => none
  | (y, fs) => some (.compare op y :: fs)

/-- Where an operand may start. -/
def stepOperand (fs : List Frame) (p : Purpose) (ks : List Pending) (pos : Pos) :
    Token → Option State
  | .int n => some (.operator ⟨.int pos n, pos⟩ fs p ks)
  | .name x => some (.operator ⟨.var pos x, pos⟩ fs p ks)
  | .trueWord => some (.operator ⟨.bool pos true, pos⟩ fs p ks)
  | .falseWord => some (.operator ⟨.bool pos false, pos⟩ fs p ks)
  | .minus => some (.digits pos fs p ks)
  | .lparen => some (.operand (.paren pos :: fs) p ks)
  | .not => if negationFits fs then some (.operand (.negate pos :: fs) p ks) else none
  | _ => none

/-- After the operand `x`, as long as the expression goes on. -/
def stepOperator (x : Operand) (fs : List Frame) (p : Purpose) (ks : List Pending) :
    Token → Option State
  | .star => let (y, fs) := collapse 5 x fs; some (.operand (.factor y :: fs) p ks)
  | .plus => let (y, fs) := collapse 4 x fs; some (.operand (.term .plus y :: fs) p ks)
  | .minus => let (y, fs) := collapse 4 x fs; some (.operand (.term .minus y :: fs) p ks)
  | .eq => (openComparison .eq x fs).map fun fs => .operand fs p ks
  | .le => (openComparison .le x fs).map fun fs => .operand fs p ks
  | .and => let (y, fs) := collapse 1 x fs; some (.operand (.conj y :: fs) p ks)
  | .rparen =>
    match collapse 1 x fs with
    | (y, .paren pos :: fs) => some (.operator (Frame.complete (.paren pos) y) fs p ks)
    | _ => none
  | .thenWord =>
    if p = .cond then (closeExpr x fs).map fun b => .command (.thenPart b :: ks) else none
  | .doWord =>
    if p = .loop then (closeExpr x fs).map fun b => .command (.body b :: ks) else none
  | _ => none

/-- After the command `c`. -/
def stepDone (c : Com) (ks : List Pending) : Token → Option State
  | .semi => some (.command (.after c :: ks))
  | .elseWord =>
    match closeSequence c ks with
    | (c, .thenPart b :: ks) => some (.command (.elsePart b c :: ks))
    | _ => none
  | .fiWord =>
    match closeSequence c ks with
    | (d, .elsePart b c :: ks) => some (.done (.cond b c d) ks)
    | _ => none
  | .endWord =>
    match closeSequence c ks with
    | (c, .body b :: ks) => some (.done (.loop b c) ks)
    | _ => none
  | _ => none

/-- Where a command may start. -/
def stepCommand (ks : List Pending) : Token → Option State
  | .skipWord => some (.done .skip ks)
  | .ifWord => some (.operand [] .cond ks)
  | .whileWord => some (.operand [] .loop ks)
  | .name x => some (.target x ks)
  | _ => none

/-- Takes the token `t` at `pos`. -/
def State.step (s : State) (t : Token) (pos : Pos) : Option State :=
  match s with
  | .command ks => stepCommand ks t
  | .target x ks => if t = .assign then some (.operand [] (.assign x) ks) else none
  | .operand fs p ks => stepOperand fs p ks pos t
  | .digits start fs p ks =>
    match t with
    | .int n => some (.operator ⟨.int start (-n), start⟩ fs p ks)
    | _ => none
  | .done c ks => stepDone c ks t
  | .operator x fs p ks =>
    (stepOperator x fs p ks t).or (s.complete?.bind fun (c, ks) => stepDone c ks t)

/-- The program of a state in which the text may end. -/
def State.finish (s : State) : Option Com :=
  match s.complete? with
  | some (c, ks) =>
    match closeSequence c ks with
    | (c, []) => some c
    | _ => none
  | none => none

/-- Takes the rest of the tokens. -/
def State.read (s : State) : Lexemes → Except ParseError Com
  | .finished last =>
    match s.finish with
    | some c => pure c
    | none => throw (.unexpected last)
  | .stray pos => throw (.unexpected pos)
  | .next t pos rest =>
    match s.step t pos with
    | some s => s.read rest
    | none => throw (.unexpected pos)

/-- The located tree of a program. -/
def readProgram (text : String) : Except ParseError Com := (State.command []).read (tokens text)

end ImpSSA.Surface

namespace ImpSSA

/-- The command that a text stands for. -/
def Node.parse (text : String) : Except Surface.ParseError Node := do
  (← Surface.readProgram text).toNode

end ImpSSA
