import ImpSSA.Node.WellSorted
import ImpSSA.Proofs.Control
import ImpSSA.Surface.Parse

/-!
# The grammar and the parser

`Phrase level ts n` is the grammar: the tokens `ts` form a phrase of a level and stand for the tree
`n`, of whatever category. The parser keeps what is open on stacks, so what it makes of a phrase is
stated for any stacks below. After an expression it has an operand and some more open operators, and
completing those of them that bind as tightly as the level gives the tree (`Level.Reads`). After a
command it has the last command of a sequence whose earlier ones are waiting (`ReadsCommand`). Every
phrase is read that way (`Phrase.reads`), and of a whole program nothing but its tree is left
(`Phrase.read_program`).
-/

namespace ImpSSA

open Surface in
/-- The mark of a comparison. -/
def CmpOp.token : CmpOp → Token
  | .eq => .eq
  | .le => .le

namespace Surface

/-- The levels of the grammar. -/
inductive Level where
  | command
  | simple
  | conj
  | negation
  | comparison
  | sum
  | product
  | atom

/-- The tokens are a phrase of a level and stand for a tree. -/
inductive Phrase : Level → List Token → Node → Prop where
  | int {n : Nat} :
    Phrase .atom [.int n] (.num n)
  | negative {n : Nat} :
    Phrase .atom [.minus, .int n] (.num (-n))
  | var {x} :
    Phrase .atom [.name x] (.var x)
  | truth :
    Phrase .atom [.trueWord] (.bool true)
  | falsity :
    Phrase .atom [.falseWord] (.bool false)
  | paren {ts e} :
    Phrase .conj ts e →
    Phrase .atom (.lparen :: (ts ++ [.rparen])) e
  | factor {ts e} :
    Phrase .atom ts e →
    Phrase .product ts e
  | times {ts us l r} :
    Phrase .product ts l →
    Phrase .atom us r →
    Phrase .product (ts ++ .star :: us) (.arith .times l r)
  | term {ts e} :
    Phrase .product ts e →
    Phrase .sum ts e
  | plus {ts us l r} :
    Phrase .sum ts l →
    Phrase .product us r →
    Phrase .sum (ts ++ .plus :: us) (.arith .plus l r)
  | minus {ts us l r} :
    Phrase .sum ts l →
    Phrase .product us r →
    Phrase .sum (ts ++ .minus :: us) (.arith .minus l r)
  | side {ts e} :
    Phrase .sum ts e →
    Phrase .comparison ts e
  | cmp {op : CmpOp} {ts us l r} :
    Phrase .sum ts l →
    Phrase .sum us r →
    Phrase .comparison (ts ++ op.token :: us) (.cmp op l r)
  | plain {ts e} :
    Phrase .comparison ts e →
    Phrase .negation ts e
  | not {ts e} :
    Phrase .negation ts e →
    Phrase .negation (.not :: ts) (.not e)
  | conjunct {ts e} :
    Phrase .negation ts e →
    Phrase .conj ts e
  | and {ts us l r} :
    Phrase .conj ts l →
    Phrase .negation us r →
    Phrase .conj (ts ++ .and :: us) (.and l r)
  | skip :
    Phrase .simple [.skipWord] .skip
  | assign {x ts e} :
    Phrase .conj ts e →
    Phrase .simple (.name x :: .assign :: ts) (.assign x e)
  | cond {bs cs ds b c d} :
    Phrase .conj bs b →
    Phrase .command cs c →
    Phrase .command ds d →
    Phrase .simple (.ifWord :: (bs ++ .thenWord :: (cs ++ .elseWord :: (ds ++ [.fiWord]))))
      (.cond b c d)
  | loop {bs cs b c} :
    Phrase .conj bs b →
    Phrase .command cs c →
    Phrase .simple (.whileWord :: (bs ++ .doWord :: (cs ++ [.endWord]))) (.loop b c)
  | single {ts c} :
    Phrase .simple ts c →
    Phrase .command ts c
  | seq {ts us c d} :
    Phrase .simple ts c →
    Phrase .command us d →
    Phrase .command (ts ++ .semi :: us) (.seq c d)

/-! ## Trees without places -/

/-- The tree of an expression, of whatever category. -/
def Expr.node : Expr → Node
  | .int _ n => .num n
  | .var _ x => .var x
  | .bool _ b => .bool b
  | .not _ e => .not e.node
  | .binary _ op l r => op.node l.node r.node

/-- The tree of a command, with expressions of whatever category. -/
def Com.node : Com → Node
  | .skip => .skip
  | .assign x e => .assign x e.node
  | .seq c d => .seq c.node d.node
  | .cond b c d => .cond b.node c.node d.node
  | .loop b c => .loop b.node c.node

/-- An expression of the expected category passes. -/
lemma bind_expect {β : Type} {e : Expr} {k} {f : Node → Except ParseError β}
    (read : e.toNode = .ok e.node) (ws : Node.WellSorted k e.node) :
    (e.toNode >>= fun n => expect k e.pos n >>= f) = f e.node := by
  have checked : expect k e.pos e.node = .ok e.node := if_pos ws.category_eq
  rw [read]
  show (expect k e.pos e.node >>= f) = f e.node
  rw [checked]
  rfl

/-- The check passes well-sorted expressions. -/
lemma Expr.toNode_eq {e : Expr} {k} (ws : Node.WellSorted k e.node) : e.toNode = .ok e.node := by
  induction e generalizing k with
  | int | var | bool => rfl
  | not pos e ih =>
    cases ws with
    | not ws => exact bind_expect (ih ws) ws
  | binary pos op l r ihl ihr =>
    obtain ⟨wsl, wsr⟩ : Node.WellSorted op.operands l.node ∧ Node.WellSorted op.operands r.node := by
      cases op with
      | arith | cmp | and =>
        cases ws
        constructor <;> assumption
    exact (bind_expect (ihl wsl) wsl).trans (bind_expect (ihr wsr) wsr)

/-- The check passes well-sorted commands. -/
lemma Com.toNode_eq {c : Com} (ws : Node.WellSorted .command c.node) : c.toNode = .ok c.node := by
  induction c with
  | skip => rfl
  | assign x e =>
    cases ws with
    | assign ws => exact bind_expect (Expr.toNode_eq ws) ws
  | seq c d ihc ihd =>
    cases ws with
    | seq wsc wsd =>
      rw [toNode, ihc wsc, ihd wsd]
      rfl
  | cond b c d ihc ihd =>
    cases ws with
    | cond wsb wsc wsd =>
      rw [toNode, ihc wsc, ihd wsd]
      exact bind_expect (Expr.toNode_eq wsb) wsb
  | loop b c ihc =>
    cases ws with
    | loop wsb wsc =>
      rw [toNode, ihc wsc]
      exact bind_expect (Expr.toNode_eq wsb) wsb

/-! ## Taking tokens -/

/-- Takes tokens one after the other. -/
def State.takes (s : State) : List (Token × Pos) → Option State
  | [] => some s
  | (t, pos) :: ts => (s.step t pos).bind fun s => s.takes ts

/-- Tokens one after the other. -/
lemma State.takes_append {s s' : State} {ts us} (first : s.takes ts = some s') :
    s.takes (ts ++ us) = s'.takes us := by
  induction ts generalizing s with
  | nil =>
    cases first
    rfl
  | cons t ts ih =>
    obtain ⟨s₁, step, rest⟩ := Option.bind_eq_some_iff.1 first
    rw [List.cons_append, takes, step]
    exact ih rest

/-- A token in front of others. -/
lemma State.takes_cons {s s' : State} {t pos ts} (first : s.step t pos = some s') :
    s.takes ((t, pos) :: ts) = s'.takes ts := by
  rw [takes, first]
  rfl

/-- The first of the located tokens. -/
lemma located_cons {lts : List (Token × Pos)} {t ts} (tokens : lts.map (·.1) = t :: ts) :
    ∃ pos r, lts = (t, pos) :: r ∧ r.map (·.1) = ts := by
  obtain ⟨⟨t, pos⟩, r, rfl, rfl, rest⟩ := List.map_eq_cons_iff.1 tokens
  exact ⟨pos, r, rfl, rest⟩

/-- A token in the middle of the located ones. -/
lemma located_append {lts : List (Token × Pos)} {ts t us} (tokens : lts.map (·.1) = ts ++ t :: us) :
    ∃ l pos r, lts = l ++ (t, pos) :: r ∧ l.map (·.1) = ts ∧ r.map (·.1) = us := by
  obtain ⟨l, r, rfl, tokensl, tokensr⟩ := List.map_eq_append_iff.1 tokens
  obtain ⟨pos, r, rfl, rest⟩ := located_cons tokensr
  exact ⟨l, pos, r, rfl, tokensl, rest⟩

/-! ## Expressions -/

/-- How tightly the operators of a level bind. -/
def Level.binding : Level → Nat
  | .command | .simple => 0
  | .conj => 1
  | .negation => 2
  | .comparison => 3
  | .sum => 4
  | .product => 5
  | .atom => 6

/-- An open operator in front of a phrase of the level binds looser than this; a negation may follow
another one. -/
def Level.room : Level → Nat
  | .negation => 3
  | level => level.binding

/-- A phrase of the level can be the right operand of the innermost open operator. -/
def Level.Fits (level : Level) (fs : List Frame) : Prop := ∀ f ∈ fs.head?, f.level < level.room

/-- Nothing collapses in front of an operand that fits. -/
lemma collapse_of_fits {level : Level} {fs m} (x : Operand) (fits : level.Fits fs)
    (le : level.room ≤ m) : collapse m x fs = (x, fs) := by
  cases fs with
  | nil => rfl
  | cons f fs =>
    have looser : f.level < level.room := fits f rfl
    exact if_neg (by omega)

/-- What the parser makes of an expression of the level: completing the operators that it leaves open
completes the tree. -/
def Level.Reads (level : Level) (ts : List Token) (e : Node) : Prop :=
  ∀ (lts : List (Token × Pos)) (fs : List Frame) (p : Purpose) (ks : List Pending),
    lts.map (·.1) = ts → level.Fits fs →
    ∃ x y fs', (State.operand fs p ks).takes lts = some (.operator x fs' p ks) ∧
      y.expr.node = e ∧ ∀ m ≤ level.binding, collapse m x fs' = collapse m y fs

/-- What is read at a level is read at every looser one. -/
lemma Level.Reads.lift {level looser : Level} {ts e} (reads : level.Reads ts e)
    (room : looser.room ≤ level.room) (binding : looser.binding ≤ level.binding) :
    looser.Reads ts e := by
  intro lts fs p ks tokens fits
  obtain ⟨x, y, fs', taken, node, same⟩ :=
    reads lts fs p ks tokens fun f mem => Nat.lt_of_lt_of_le (fits f mem) room
  exact ⟨x, y, fs', taken, node, fun m le => same m (Nat.le_trans le binding)⟩

/-- A token that is an operand by itself. -/
lemma reads_token {t e} (operand : ∀ fs p ks pos,
      ∃ x, stepOperand fs p ks pos t = some (.operator x fs p ks) ∧ x.expr.node = e) :
    Level.atom.Reads [t] e := by
  intro lts fs p ks tokens _
  obtain ⟨pos, r, rfl, nil⟩ := located_cons tokens
  obtain rfl := List.map_eq_nil_iff.1 nil
  obtain ⟨x, step, node⟩ := operand fs p ks pos
  exact ⟨x, x, fs, State.takes_cons step, node, fun _ _ => rfl⟩

/-- A minus sign and a number are read as a negative literal. -/
lemma reads_negative {n : Nat} : Level.atom.Reads [.minus, .int n] (.num (-n)) := by
  intro lts fs p ks tokens _
  obtain ⟨pos, r, rfl, digits⟩ := located_cons tokens
  obtain ⟨pos', r, rfl, nil⟩ := located_cons digits
  obtain rfl := List.map_eq_nil_iff.1 nil
  exact ⟨_, ⟨.int pos (-n), pos⟩, fs, rfl, rfl, fun _ _ => rfl⟩

/-- An expression in brackets is read as an atom. -/
lemma reads_paren {ts e} (reads : Level.conj.Reads ts e) :
    Level.atom.Reads (.lparen :: (ts ++ [.rparen])) e := by
  intro lts fs p ks tokens _
  obtain ⟨pos, r, rfl, rest⟩ := located_cons tokens
  obtain ⟨inner, pos', r, rfl, tokensi, nil⟩ := located_append rest
  obtain rfl := List.map_eq_nil_iff.1 nil
  obtain ⟨x, y, fs', taken, node, same⟩ := reads inner (.paren pos :: fs) p ks tokensi (by
    rintro f ⟨⟩
    exact Nat.zero_lt_one)
  -- the parenthesis stops what the closing one completes
  have stops : collapse 1 x fs' = (y, .paren pos :: fs) := same 1 (Nat.le_refl _)
  have closed : (State.operator x fs' p ks).step .rparen pos' =
      some (.operator (Frame.complete (.paren pos) y) fs p ks) := by
    simp only [State.step, stepOperator, stops, Option.or]
  refine ⟨_, Frame.complete (.paren pos) y, fs, ?_, node, fun _ _ => rfl⟩
  rw [State.takes_cons rfl, State.takes_append taken, State.takes_cons closed]
  rfl

/-- A negation is read. -/
lemma reads_not {ts e} (reads : Level.negation.Reads ts e) :
    Level.negation.Reads (.not :: ts) (.not e) := by
  intro lts fs p ks tokens fits
  obtain ⟨pos, r, rfl, rest⟩ := located_cons tokens
  obtain ⟨x, y, fs', taken, node, same⟩ := reads r (.negate pos :: fs) p ks rest (by
    rintro f ⟨⟩
    exact Nat.lt_succ_self 2)
  have opened : (State.operand fs p ks).step .not pos = some (.operand (.negate pos :: fs) p ks) := by
    have free : negationFits fs = true := by
      cases fs with
      | nil => rfl
      | cons f fs => exact decide_eq_true (Nat.le_of_lt_succ (fits f rfl))
    simp only [State.step, stepOperand, free, if_true]
  refine ⟨x, Frame.complete (.negate pos) y, fs', ?_, congrArg Node.not node, ?_⟩
  · rw [State.takes_cons opened, taken]
  · intro m le
    exact (same m le).trans (if_pos le)

/-! ### Binary operators -/

/-- The mark of an operator. -/
def BinOp.token : BinOp → Token
  | .arith .plus => .plus
  | .arith .minus => .minus
  | .arith .times => .star
  | .cmp op => op.token
  | .and => .and

/-- The level of what an operator makes. -/
def BinOp.level : BinOp → Level
  | .arith .times => .product
  | .arith _ => .sum
  | .cmp _ => .comparison
  | .and => .conj

/-- The level of the left operand; comparisons do not associate. -/
def BinOp.left : BinOp → Level
  | .cmp _ => .sum
  | op => op.level

/-- The level of the right operand. -/
def BinOp.right : BinOp → Level
  | .arith .times => .atom
  | .arith _ => .product
  | .cmp _ => .sum
  | .and => .negation

/-- An operator with its left operand. -/
def BinOp.frame : BinOp → Operand → Frame
  | .arith .times, x => .factor x
  | .arith op, x => .term op x
  | .cmp op, x => .compare op x
  | .and, x => .conj x

/-- The frame of an operator has its level. -/
lemma BinOp.frame_level (op : BinOp) (x : Operand) : (op.frame x).level = op.level.binding := by
  rcases op with (_ | _ | _) | _ | _ <;> rfl

/-- The frame of an operator is completed to its operation. -/
lemma BinOp.frame_complete (op : BinOp) (x y : Operand) :
    ((op.frame x).complete y).expr.node = op.node x.expr.node y.expr.node := by
  rcases op with (_ | _ | _) | _ | _ <;> rfl

/-- The left operand of an operator may be one of its own level. -/
lemma BinOp.level_room_le (op : BinOp) :
    op.level.room ≤ op.left.room ∧ op.level.room ≤ op.left.binding := by
  rcases op with (_ | _ | _) | (_ | _) | _ <;> decide

/-- The right operand of an operator binds tighter. -/
lemma BinOp.level_lt_right (op : BinOp) :
    op.level.binding < op.right.room ∧ op.level.binding ≤ op.right.binding := by
  rcases op with (_ | _ | _) | (_ | _) | _ <;> decide

/-- The mark of an operator completes the left operand and opens the operator. -/
lemma BinOp.opens {op : BinOp} {x y fs fs' p ks pos} (fits : op.level.Fits fs)
    (same : ∀ m ≤ op.left.binding, collapse m x fs' = collapse m y fs) :
    (State.operator x fs' p ks).step op.token pos = some (.operand (op.frame y :: fs) p ks) := by
  have left : collapse op.left.binding x fs' = (y, fs) :=
    (same _ (Nat.le_refl _)).trans (collapse_of_fits y fits op.level_room_le.2)
  rcases op with (_ | _ | _) | op | _
  case cmp =>
    -- a comparison that is still open would refuse the mark
    have opened : openComparison op x fs' = some (.compare op y :: fs) := by
      have left : collapse 4 x fs' = (y, fs) := left
      rw [openComparison, left]
      cases fs with
      | nil => rfl
      | cons f fs =>
        cases f with
        | compare op l => exact absurd (fits _ rfl) (Nat.lt_irrefl 3)
        | factor | term | negate | conj | paren => rfl
    cases op <;> simp [State.step, stepOperator, token, CmpOp.token, frame, opened]
  all_goals
    simp only [BinOp.left, BinOp.level, Level.binding] at left
    simp [State.step, stepOperator, token, frame, left]

/-- An operation is read at the level of its operator. -/
lemma reads_binary (op : BinOp) {ts us l r} (readsl : op.left.Reads ts l)
    (readsr : op.right.Reads us r) : op.level.Reads (ts ++ op.token :: us) (op.node l r) := by
  intro lts fs p ks tokens fits
  obtain ⟨ls, pos, rs, rfl, tokensl, tokensr⟩ := located_append tokens
  obtain ⟨x, y, fs₁, takenl, rfl, samel⟩ := readsl ls fs p ks tokensl fun f mem =>
    Nat.lt_of_lt_of_le (fits f mem) op.level_room_le.1
  obtain ⟨z, w, fs₂, takenr, rfl, samer⟩ := readsr rs (op.frame y :: fs) p ks tokensr (by
    rintro f ⟨⟩
    rw [op.frame_level]
    exact op.level_lt_right.1)
  refine ⟨z, (op.frame y).complete w, fs₂, ?_, op.frame_complete y w, ?_⟩
  · rw [State.takes_append takenl, State.takes_cons (BinOp.opens fits samel), takenr]
  · -- what the right operand leaves open binds tighter, so it is completed before the operator
    intro m le
    have bound : m ≤ (op.frame y).level := op.frame_level y ▸ le
    exact (samer m (Nat.le_trans le op.level_lt_right.2)).trans (if_pos bound)

/-! ## Commands -/

/-- What the parser makes of a command: completing the sequence that it leaves open completes the
tree. -/
def ReadsCommand (ts : List Token) (e : Node) : Prop :=
  ∀ (lts : List (Token × Pos)) (ks : List Pending), lts.map (·.1) = ts →
    ∃ s c c' ks', (State.command ks).takes lts = some s ∧ s.complete? = some (c, ks') ∧
      c'.node = e ∧ closeSequence c ks' = closeSequence c' ks

/-- What the parser makes of a command that is not a sequence. -/
def ReadsSimple (ts : List Token) (e : Node) : Prop :=
  ∀ (lts : List (Token × Pos)) (ks : List Pending), lts.map (·.1) = ts →
    ∃ s c, (State.command ks).takes lts = some s ∧ s.complete? = some (c, ks) ∧ c.node = e

/-- A complete command goes on like any other, whether or not an expression ends it. -/
lemma State.step_of_complete {s : State} {c ks t pos} (complete : s.complete? = some (c, ks))
    (ends : t = .semi ∨ t = .elseWord ∨ t = .fiWord ∨ t = .endWord) :
    s.step t pos = stepDone c ks t := by
  cases s with
  | command | target | operand | digits => cases complete
  | done c ks =>
    cases complete
    rfl
  | operator x fs p ks =>
    have refused : stepOperator x fs p ks t = none := by
      rcases ends with rfl | rfl | rfl | rfl <;> rfl
    rw [step, refused, complete]
    rfl

/-- A condition up to the word that ends it. -/
lemma reads_condition {ts e} (reads : Level.conj.Reads ts e) {lts : List (Token × Pos)} (p ks)
    (tokens : lts.map (·.1) = ts) :
    ∃ x fs b, (State.operand [] p ks).takes lts = some (.operator x fs p ks) ∧
      closeExpr x fs = some b ∧ b.node = e := by
  obtain ⟨x, y, fs, taken, node, same⟩ := reads lts [] p ks tokens nofun
  have all : collapse 1 x fs = (y, []) := same 1 (Nat.le_refl _)
  exact ⟨x, fs, y.expr, taken, by rw [closeExpr, all], node⟩

/-- A branch or a body up to the word that ends it. -/
lemma ReadsCommand.until {ts e t} (reads : ReadsCommand ts e)
    (ends : t = .elseWord ∨ t = .fiWord ∨ t = .endWord) {lts : List (Token × Pos)} (k ks)
    (tokens : lts.map (·.1) = ts) (opener : ∀ c, closeSequence c (k :: ks) = (c, k :: ks)) (pos) :
    ∃ c, c.node = e ∧ (State.command (k :: ks)).takes (lts ++ [(t, pos)]) =
      stepDone c (k :: ks) t := by
  obtain ⟨s, d, c, ks', taken, complete, node, same⟩ := reads lts (k :: ks) tokens
  rw [opener] at same
  refine ⟨c, node, ?_⟩
  rw [State.takes_append taken, State.takes, State.step_of_complete complete (.inr ends)]
  have closed : stepDone d ks' t = stepDone c (k :: ks) t := by
    rcases ends with rfl | rfl | rfl <;> simp only [stepDone, same, opener]
  rw [closed]
  exact Option.bind_fun_some _

/-- The command that does nothing is read. -/
lemma reads_skip : ReadsSimple [.skipWord] .skip := by
  intro lts ks tokens
  obtain ⟨pos, r, rfl, nil⟩ := located_cons tokens
  obtain rfl := List.map_eq_nil_iff.1 nil
  exact ⟨_, .skip, rfl, rfl, rfl⟩

/-- An assignment is read. -/
lemma reads_assign {x ts e} (reads : Level.conj.Reads ts e) :
    ReadsSimple (.name x :: .assign :: ts) (.assign x e) := by
  intro lts ks tokens
  obtain ⟨pos, r, rfl, rest⟩ := located_cons tokens
  obtain ⟨pos', r, rfl, tokense⟩ := located_cons rest
  obtain ⟨y, fs, b, taken, closed, rfl⟩ := reads_condition reads (.assign x) ks tokense
  refine ⟨.operator y fs (.assign x) ks, .assign x b, ?_, ?_, rfl⟩
  · rw [State.takes_cons rfl, State.takes_cons rfl, taken]
  · rw [State.complete?, closed]
    rfl

/-- A conditional is read, whatever its branches end with. -/
lemma reads_cond {bs cs ds b c d} (readsb : Level.conj.Reads bs b) (readsc : ReadsCommand cs c)
    (readsd : ReadsCommand ds d) :
    ReadsSimple (.ifWord :: (bs ++ .thenWord :: (cs ++ .elseWord :: (ds ++ [.fiWord]))))
      (.cond b c d) := by
  intro lts ks tokens
  obtain ⟨pos, r, rfl, rest⟩ := located_cons tokens
  obtain ⟨lb, pos₁, r, rfl, tokensb, rest₁⟩ := located_append rest
  obtain ⟨lc, pos₂, r, rfl, tokensc, rest₂⟩ := located_append rest₁
  obtain ⟨ld, pos₃, r, rfl, tokensd, nil⟩ := located_append rest₂
  obtain rfl := List.map_eq_nil_iff.1 nil
  obtain ⟨x, fs, b, takenb, closed, rfl⟩ := reads_condition readsb .cond ks tokensb
  obtain ⟨c, rfl, takenc⟩ := readsc.until (.inl rfl) (.thenPart b) ks tokensc (fun _ => rfl) pos₂
  obtain ⟨d, rfl, takend⟩ :=
    readsd.until (.inr (.inl rfl)) (.elsePart b c) ks tokensd (fun _ => rfl) pos₃
  have opened : (State.operator x fs .cond ks).step .thenWord pos₁ =
      some (.command (.thenPart b :: ks)) := by
    simp only [State.step, stepOperator, closed, if_true, Option.map_some, Option.or]
  refine ⟨.done (.cond b c d) ks, .cond b c d, ?_, rfl, rfl⟩
  rw [State.takes_cons rfl, State.takes_append takenb, State.takes_cons opened,
    List.append_cons, State.takes_append takenc, takend]
  rfl

/-- A loop is read, whatever its body ends with. -/
lemma reads_loop {bs cs b c} (readsb : Level.conj.Reads bs b) (readsc : ReadsCommand cs c) :
    ReadsSimple (.whileWord :: (bs ++ .doWord :: (cs ++ [.endWord]))) (.loop b c) := by
  intro lts ks tokens
  obtain ⟨pos, r, rfl, rest⟩ := located_cons tokens
  obtain ⟨lb, pos₁, r, rfl, tokensb, rest₁⟩ := located_append rest
  obtain ⟨lc, pos₂, r, rfl, tokensc, nil⟩ := located_append rest₁
  obtain rfl := List.map_eq_nil_iff.1 nil
  obtain ⟨x, fs, b, takenb, closed, rfl⟩ := reads_condition readsb .loop ks tokensb
  obtain ⟨c, rfl, takenc⟩ :=
    readsc.until (.inr (.inr rfl)) (.body b) ks tokensc (fun _ => rfl) pos₂
  have opened : (State.operator x fs .loop ks).step .doWord pos₁ =
      some (.command (.body b :: ks)) := by
    simp only [State.step, stepOperator, closed, if_true, Option.map_some, Option.or]
  refine ⟨.done (.loop b c) ks, .loop b c, ?_, rfl, rfl⟩
  rw [State.takes_cons rfl, State.takes_append takenb, State.takes_cons opened, takenc]
  rfl

/-- A simple command alone. -/
lemma ReadsSimple.single {ts e} (reads : ReadsSimple ts e) : ReadsCommand ts e := by
  intro lts ks tokens
  obtain ⟨s, c, taken, complete, node⟩ := reads lts ks tokens
  exact ⟨s, c, c, ks, taken, complete, node, rfl⟩

/-- A simple command in front of others. -/
lemma ReadsSimple.seq {ts us c d} (first : ReadsSimple ts c) (second : ReadsCommand us d) :
    ReadsCommand (ts ++ .semi :: us) (.seq c d) := by
  intro lts ks tokens
  obtain ⟨ls, pos, rs, rfl, tokensl, tokensr⟩ := located_append tokens
  obtain ⟨s, c, taken, complete, rfl⟩ := first ls ks tokensl
  obtain ⟨s', d, d', ks', taken', complete', rfl, same⟩ := second rs (.after c :: ks) tokensr
  have goesOn : s.step .semi pos = some (.command (.after c :: ks)) :=
    State.step_of_complete complete (.inl rfl)
  refine ⟨s', d, .seq c d', ks', ?_, complete', rfl, same⟩
  rw [State.takes_append taken, State.takes_cons goesOn, taken']

/-! ## Programs -/

/-- What the parser makes of a phrase of the level. -/
def Level.Taken : Level → List Token → Node → Prop
  | .command => ReadsCommand
  | .simple => ReadsSimple
  | level => level.Reads

/-- The parser reads every phrase and makes its tree of it. -/
lemma Phrase.reads {level ts e} (phrase : Phrase level ts e) : level.Taken ts e := by
  induction phrase with
  | int | var | truth | falsity => exact reads_token fun _ _ _ _ => ⟨_, rfl, rfl⟩
  | negative => exact reads_negative
  | paren _ ih => exact reads_paren ih
  | factor _ ih => exact Level.Reads.lift ih (by decide) (by decide)
  | times _ _ ihl ihr => exact reads_binary (.arith .times) ihl ihr
  | term _ ih => exact Level.Reads.lift ih (by decide) (by decide)
  | plus _ _ ihl ihr => exact reads_binary (.arith .plus) ihl ihr
  | minus _ _ ihl ihr => exact reads_binary (.arith .minus) ihl ihr
  | side _ ih => exact Level.Reads.lift ih (by decide) (by decide)
  | cmp _ _ ihl ihr => exact reads_binary (.cmp _) ihl ihr
  | plain _ ih => exact Level.Reads.lift ih (by decide) (by decide)
  | not _ ih => exact reads_not ih
  | conjunct _ ih => exact Level.Reads.lift ih (by decide) (by decide)
  | and _ _ ihl ihr => exact reads_binary .and ihl ihr
  | skip => exact reads_skip
  | assign _ ih => exact reads_assign ih
  | cond _ _ _ ihb ihc ihd => exact reads_cond ihb ihc ihd
  | loop _ _ ihb ihc => exact reads_loop ihb ihc
  | single _ ih => exact ih.single
  | seq _ _ ihc ihd => exact ihc.seq ihd

/-- Located tokens up to the end of the text. -/
def Lexemes.ofList (last : Pos) : List (Token × Pos) → Lexemes
  | [] => .finished last
  | (t, pos) :: ts => .next t pos (ofList last ts)

/-- Reading a list of tokens takes all of them. -/
lemma State.read_ofList {s s' : State} {ts last} (taken : s.takes ts = some s') :
    s.read (.ofList last ts) = s'.read (.finished last) := by
  induction ts generalizing s with
  | nil =>
    cases taken
    rfl
  | cons t ts ih =>
    obtain ⟨s₁, step, rest⟩ := Option.bind_eq_some_iff.1 taken
    have next : s.read (.ofList last (t :: ts)) = s₁.read (.ofList last ts) := by
      simp only [Lexemes.ofList, read, step]
    exact next.trans (ih rest)

/-- The parser makes its tree of a whole program. -/
lemma Phrase.read_program {lts : List (Token × Pos)} {e} (last : Pos)
    (phrase : Phrase .command (lts.map (·.1)) e) :
    ∃ c, (State.command []).read (.ofList last lts) = .ok c ∧ c.node = e := by
  obtain ⟨s, d, c, ks, taken, complete, node, same⟩ := phrase.reads lts [] rfl
  have whole : closeSequence d ks = (c, []) := same
  have finished : s.finish = some c := by rw [State.finish, complete]; simp only [whole]
  refine ⟨c, ?_, node⟩
  rw [State.read_ofList taken, State.read, finished]
  rfl

end Surface

end ImpSSA
