import ImpSSA.Proofs.Surface.Grammar

/-!
# What the parser has read

The stacks of the parser stand for the tokens that were taken. `Opened fs ts` says so of open operators
and `Waiting ks ts` of waiting commands: each has the phrase of what is complete to its left, and an
operator also that its result can be the right operand of the one below. Completing operators or
commands keeps the tokens (`Opened.collapse`, `Waiting.closeSequence`), so a state goes on standing for
what it has taken (`State.Covers.step`, `State.Covers.takes`), and a text that is read as a program is
one (`phrase_of_read`).
-/

namespace ImpSSA.Surface

/-! ## Phrases at looser levels -/

/-- A phrase of one level is a phrase of the next one. -/
lemma Phrase.loosen {level ts e} (phrase : Phrase level ts e) (tight : 1 < level.binding) :
    ∃ looser : Level, looser.binding + 1 = level.binding ∧ Phrase looser ts e := by
  cases level with
  | command | simple | conj => exact absurd tight (by decide)
  | negation => exact ⟨.conj, rfl, .conjunct phrase⟩
  | comparison => exact ⟨.negation, rfl, .plain phrase⟩
  | sum => exact ⟨.comparison, rfl, .side phrase⟩
  | product => exact ⟨.sum, rfl, .term phrase⟩
  | atom => exact ⟨.product, rfl, .factor phrase⟩

/-- Levels of expressions that bind equally tight are equal. -/
lemma Level.eq_of_binding_eq {a b : Level} (expr : 0 < a.binding) (eq : a.binding = b.binding) :
    a = b := by
  cases a <;> cases b <;> simp [binding] at expr eq ⊢

/-- An expression of a level is one of every looser level. -/
lemma Phrase.lift {level goal : Level} {ts e} (phrase : Phrase level ts e) (expr : 0 < goal.binding)
    (le : goal.binding ≤ level.binding) : Phrase goal ts e := by
  induction gap : level.binding - goal.binding generalizing level with
  | zero =>
    obtain rfl := Level.eq_of_binding_eq expr (by omega : goal.binding = level.binding)
    exact phrase
  | succ n ih =>
    obtain ⟨looser, next, phrase⟩ := phrase.loosen (by omega)
    exact ih phrase (by omega) (by omega)

/-- An operator between phrases of its operands' levels. -/
lemma BinOp.phrase (op : BinOp) {ts us l r} (left : Phrase op.left ts l)
    (right : Phrase op.right us r) : Phrase op.level (ts ++ op.token :: us) (op.node l r) := by
  rcases op with (_ | _ | _) | _ | _
  · exact .plus left right
  · exact .minus left right
  · exact .times left right
  · exact .cmp left right
  · exact .and left right

/-- What has room behind an operator is tight enough to be its right operand. -/
lemma BinOp.right_le {op : BinOp} {level : Level} (room : op.level.binding < level.room) :
    op.right.binding ≤ level.binding := by
  rcases op with (_ | _ | _) | _ | _ <;> cases level <;>
    simp [BinOp.level, BinOp.right, Level.room, Level.binding] at room ⊢

/-- A level has room for what binds as tight as it does. -/
lemma Level.binding_le_room (level : Level) : level.binding ≤ level.room := by
  cases level <;> simp [room, binding]

/-! ## Open operators -/

/-- The tokens of the open operators, with their left operands. -/
inductive Opened : List Frame → List Token → Prop where
  | nil :
    Opened [] []
  | binary {op : BinOp} {l fs ts us} :
    Opened fs ts →
    op.level.Fits fs →
    Phrase op.left us l.expr.node →
    Opened (op.frame l :: fs) (ts ++ us ++ [op.token])
  | negate {pos fs ts} :
    Opened fs ts →
    Level.negation.Fits fs →
    Opened (.negate pos :: fs) (ts ++ [.not])
  | paren {pos fs ts} :
    Opened fs ts →
    Opened (.paren pos :: fs) (ts ++ [.lparen])

/-- If a bracket is the innermost open phrase, it was the last token. -/
lemma Opened.paren_inv {pos fs ts} (opened : Opened (.paren pos :: fs) ts) :
    ∃ ts', ts = ts' ++ [.lparen] ∧ Opened fs ts' := by
  generalize e : Frame.paren pos :: fs = gs at opened
  cases opened with
  | nil => cases e
  | @binary op l =>
    obtain ⟨frame, _⟩ := List.cons.inj e
    rcases op with (_ | _ | _) | _ | _ <;> cases frame
  | negate => cases e
  | paren opened =>
    cases e
    exact ⟨_, rfl, opened⟩

/-- An operator that binds looser than a level stays open, and what is behind it is of the level. -/
lemma Opened.stop {level goal : Level} {f fs ts us} {x : Operand} (opened : Opened (f :: fs) ts)
    (phrase : Phrase level us x.expr.node) (expr : 0 < goal.binding)
    (le : goal.binding ≤ level.binding) (loose : ¬ goal.binding ≤ f.level) {y gs}
    (eq : Surface.collapse goal.binding x (f :: fs) = (y, gs)) :
    ∃ ts' us', Opened gs ts' ∧ Phrase goal us' y.expr.node ∧ goal.Fits gs ∧
      ts' ++ us' = ts ++ us := by
  rw [Surface.collapse, if_neg loose] at eq
  cases eq
  refine ⟨ts, us, opened, phrase.lift expr le, ?_, rfl⟩
  rintro f ⟨⟩
  exact Nat.lt_of_lt_of_le (Nat.lt_of_not_le loose) goal.binding_le_room

/-- Completing the operators that bind as tightly as a level makes a phrase of the level, which can be
the right operand of what is left open. -/
lemma Opened.collapse (goal : Level) {level : Level} {fs ts us} {x : Operand} (opened : Opened fs ts)
    (phrase : Phrase level us x.expr.node) (fits : level.Fits fs) (expr : 0 < goal.binding)
    (le : goal.binding ≤ level.binding) {y gs} (eq : Surface.collapse goal.binding x fs = (y, gs)) :
    ∃ ts' us', Opened gs ts' ∧ Phrase goal us' y.expr.node ∧ goal.Fits gs ∧
      ts' ++ us' = ts ++ us := by
  induction opened generalizing level us x with
  | nil =>
    cases eq
    exact ⟨[], us, .nil, phrase.lift expr le, nofun, rfl⟩
  | @binary op l fs ts vs opened below left ih =>
    by_cases tight : goal.binding ≤ (op.frame l).level
    · rw [Surface.collapse, if_pos tight] at eq
      rw [op.frame_level] at tight
      have room : op.level.binding < level.room := op.frame_level l ▸ fits _ rfl
      have right : Phrase op.right us x.expr.node :=
        phrase.lift (by have := op.level_lt_right.2; omega) (BinOp.right_le room)
      have whole : Phrase op.level (vs ++ op.token :: us) ((op.frame l).complete x).expr.node :=
        op.frame_complete l x ▸ op.phrase left right
      obtain ⟨ts', us', opened', phrase', fits', tokens⟩ := ih whole below tight eq
      exact ⟨ts', us', opened', phrase', fits', by simp [tokens]⟩
    · exact Opened.stop (.binary opened below left) phrase expr le tight eq
  | @negate pos fs ts opened below ih =>
    by_cases tight : goal.binding ≤ (Frame.negate pos).level
    · rw [Surface.collapse, if_pos tight] at eq
      have room : 2 < level.room := fits _ rfl
      have operand : Phrase .negation us x.expr.node := phrase.lift Nat.two_pos (by
        cases level <;> simp [Level.room, Level.binding] at room ⊢)
      obtain ⟨ts', us', opened', phrase', fits', tokens⟩ := ih (.not operand) below tight eq
      exact ⟨ts', us', opened', phrase', fits', by simp [tokens]⟩
    · exact Opened.stop (.negate opened below) phrase expr le tight eq
  | paren opened => exact Opened.stop (.paren opened) phrase expr le (Nat.not_le_of_lt expr) eq

/-- An operand that has just been read fits everywhere. -/
lemma atom_fits (fs : List Frame) : Level.atom.Fits fs := by
  intro f _
  cases f <;> simp [Frame.level, Level.room, Level.binding]

/-- An expression that can end without an open parenthesis is complete. -/
lemma Opened.closeExpr {fs ts us e} {x : Operand} (opened : Opened fs ts)
    (phrase : Phrase .atom us x.expr.node) (closed : Surface.closeExpr x fs = some e) :
    Phrase .conj (ts ++ us) e.node := by
  rw [Surface.closeExpr] at closed
  split at closed
  · next y eq =>
    cases closed
    obtain ⟨ts', us', opened', phrase', _, tokens⟩ :=
      opened.collapse .conj phrase (atom_fits fs) (by decide) (by decide) eq
    cases opened'
    rw [← tokens]
    exact phrase'
  · cases closed

/-- The mark of an operator takes what is complete on its left. -/
lemma Opened.opens (op : BinOp) {fs us vs} {x : Operand} (opened : Opened fs us)
    (phrase : Phrase .atom vs x.expr.node) {y gs}
    (eq : Surface.collapse op.left.binding x fs = (y, gs))
    (fits : op.left.Fits gs → op.level.Fits gs) :
    Opened (op.frame y :: gs) (us ++ vs ++ [op.token]) := by
  have expr : 0 < op.left.binding ∧ op.left.binding ≤ Level.atom.binding := by
    rcases op with (_ | _ | _) | _ | _ <;> simp [BinOp.left, BinOp.level, Level.binding]
  obtain ⟨us', vs', opened', left, free, tokens⟩ :=
    opened.collapse op.left phrase (atom_fits fs) expr.1 expr.2 eq
  rw [← tokens]
  exact .binary opened' (fits free) left

/-- An atom and a comparison sign open a comparison. -/
lemma Opened.openComparison {op fs us vs gs} {x : Operand} (opened : Opened fs us)
    (phrase : Phrase .atom vs x.expr.node) (eq : Surface.openComparison op x fs = some gs) :
    Opened gs (us ++ vs ++ [op.token]) := by
  rw [Surface.openComparison] at eq
  split at eq
  · cases eq
  · next y hs free found =>
    cases eq
    refine opened.opens (.cmp op) phrase found fun fits => ?_
    -- of the operators that a sum can follow only a comparison is too tight
    intro f mem
    have loose : f.level < 4 := fits f mem
    cases hs with
    | nil => cases mem
    | cons g hs =>
      cases mem
      cases f with
      | compare op l => exact absurd rfl (free op l hs)
      | factor | term => simp [Frame.level] at loose
      | negate | conj | paren => simp [Frame.level, BinOp.level, Level.room, Level.binding]

/-! ## Waiting commands -/

/-- The tokens of the commands that wait for the one now read. -/
inductive Waiting : List Pending → List Token → Prop where
  | nil :
    Waiting [] []
  | after {c ks ts us} :
    Waiting ks ts →
    Phrase .simple us c.node →
    Waiting (.after c :: ks) (ts ++ us ++ [.semi])
  | thenPart {b ks ts us} :
    Waiting ks ts →
    Phrase .conj us b.node →
    Waiting (.thenPart b :: ks) (ts ++ .ifWord :: us ++ [.thenWord])
  | elsePart {b c ks ts us vs} :
    Waiting ks ts →
    Phrase .conj us b.node →
    Phrase .command vs c.node →
    Waiting (.elsePart b c :: ks) (ts ++ .ifWord :: us ++ .thenWord :: vs ++ [.elseWord])
  | body {b ks ts us} :
    Waiting ks ts →
    Phrase .conj us b.node →
    Waiting (.body b :: ks) (ts ++ .whileWord :: us ++ [.doWord])

/-- Completing a sequence makes a command of it. -/
lemma Waiting.closeSequence {ks ts us} {c : Com} (waiting : Waiting ks ts)
    (phrase : Phrase .command us c.node) {d ks'} (eq : Surface.closeSequence c ks = (d, ks')) :
    ∃ ts' us', Waiting ks' ts' ∧ Phrase .command us' d.node ∧ ts' ++ us' = ts ++ us := by
  induction waiting generalizing c us with
  | after waiting first ih =>
    obtain ⟨ts', us', waiting', phrase', tokens⟩ := ih (c := .seq _ c) (.seq first phrase) eq
    exact ⟨ts', us', waiting', phrase', by simp [tokens]⟩
  | nil =>
    cases eq
    exact ⟨_, us, .nil, phrase, rfl⟩
  | thenPart waiting cond =>
    cases eq
    exact ⟨_, us, .thenPart waiting cond, phrase, rfl⟩
  | elsePart waiting cond first =>
    cases eq
    exact ⟨_, us, .elsePart waiting cond first, phrase, rfl⟩
  | body waiting cond =>
    cases eq
    exact ⟨_, us, .body waiting cond, phrase, rfl⟩

/-! ## States -/

/-- The tokens in front of an expression that is read for the purpose. -/
def Purpose.tokens : Purpose → List Token
  | .assign x => [.name x, .assign]
  | .cond => [.ifWord]
  | .loop => [.whileWord]

/-- The tokens that a state has taken. -/
inductive State.Covers : State → List Token → Prop where
  | command {ks ts} :
    Waiting ks ts →
    Covers (.command ks) ts
  | target {x ks ts} :
    Waiting ks ts →
    Covers (.target x ks) (ts ++ [.name x])
  | operand {fs p ks ts us} :
    Waiting ks ts →
    Opened fs us →
    Covers (.operand fs p ks) (ts ++ (p.tokens ++ us))
  | digits {pos fs p ks ts us} :
    Waiting ks ts →
    Opened fs us →
    Covers (.digits pos fs p ks) (ts ++ (p.tokens ++ us) ++ [.minus])
  | operator {x fs p ks ts us vs} :
    Waiting ks ts →
    Opened fs us →
    Phrase .atom vs x.expr.node →
    Covers (.operator x fs p ks) (ts ++ (p.tokens ++ (us ++ vs)))
  | done {c ks ts us} :
    Waiting ks ts →
    Phrase .simple us c.node →
    Covers (.done c ks) (ts ++ us)

/-- Equal tokens are covered alike. -/
lemma State.Covers.cast {s : State} {ts ts'} (covers : s.Covers ts) (eq : ts = ts') :
    s.Covers ts' := eq ▸ covers

/-- Where a command may start. -/
lemma Waiting.stepCommand {ks ts t s} (waiting : Waiting ks ts)
    (step : Surface.stepCommand ks t = some s) : s.Covers (ts ++ [t]) := by
  cases t with
  | skipWord =>
    cases step
    exact .done waiting .skip
  | ifWord =>
    cases step
    exact .operand (p := .cond) waiting .nil
  | whileWord =>
    cases step
    exact .operand (p := .loop) waiting .nil
  | name x =>
    cases step
    exact .target waiting
  | _ => cases step

/-- Where an operand may start. -/
lemma Opened.stepOperand {fs p ks pos ts us t s} (waiting : Waiting ks ts) (opened : Opened fs us)
    (step : Surface.stepOperand fs p ks pos t = some s) :
    s.Covers (ts ++ (p.tokens ++ us) ++ [t]) := by
  have operand {x t} (phrase : Phrase .atom [t] x.expr.node) :
      (State.operator x fs p ks).Covers (ts ++ (p.tokens ++ us) ++ [t]) :=
    (State.Covers.operator waiting opened phrase).cast (by simp)
  cases t with
  | int n =>
    cases step
    exact operand .int
  | name x =>
    cases step
    exact operand .var
  | trueWord =>
    cases step
    exact operand .truth
  | falseWord =>
    cases step
    exact operand .falsity
  | minus =>
    cases step
    exact .digits waiting opened
  | lparen =>
    cases step
    exact (State.Covers.operand waiting (.paren opened)).cast (by simp)
  | not =>
    obtain ⟨free, step⟩ := Option.ite_none_right_eq_some.1 step
    cases step
    have fits : Level.negation.Fits fs := by
      intro f mem
      cases fs with
      | nil => cases mem
      | cons g fs =>
        cases mem
        exact Nat.lt_succ_of_le (of_decide_eq_true free)
    exact (State.Covers.operand waiting (.negate opened fits)).cast (by simp)
  | _ => cases step

/-- After an operand, as long as the expression goes on. -/
lemma Opened.stepOperator {x fs p ks ts us vs t s} (waiting : Waiting ks ts) (opened : Opened fs us)
    (phrase : Phrase .atom vs x.expr.node) (step : Surface.stepOperator x fs p ks t = some s) :
    s.Covers (ts ++ (p.tokens ++ (us ++ vs)) ++ [t]) := by
  have opens {gs t} (opened : Opened gs (us ++ vs ++ [t])) :
      (State.operand gs p ks).Covers (ts ++ (p.tokens ++ (us ++ vs)) ++ [t]) :=
    (State.Covers.operand waiting opened).cast (by simp)
  cases t with
  | star =>
    cases step
    exact opens (opened.opens (.arith .times) phrase rfl id)
  | plus =>
    cases step
    exact opens (opened.opens (.arith .plus) phrase rfl id)
  | minus =>
    cases step
    exact opens (opened.opens (.arith .minus) phrase rfl id)
  | and =>
    cases step
    exact opens (opened.opens .and phrase rfl id)
  | eq =>
    obtain ⟨gs, opened', rfl⟩ := Option.map_eq_some_iff.1 step
    exact opens (opened.openComparison phrase opened')
  | le =>
    obtain ⟨gs, opened', rfl⟩ := Option.map_eq_some_iff.1 step
    exact opens (opened.openComparison phrase opened')
  | rparen =>
    simp only [Surface.stepOperator] at step
    split at step
    · next y pos gs eq =>
      cases step
      obtain ⟨us', vs', opened', inner, _, tokens⟩ :=
        opened.collapse .conj phrase (atom_fits fs) (by decide) (by decide) eq
      obtain ⟨us', rfl, outer⟩ := opened'.paren_inv
      have operand : Phrase .atom (.lparen :: (vs' ++ [.rparen]))
          ((Frame.paren pos).complete y).expr.node := .paren inner
      exact (State.Covers.operator waiting outer operand).cast (by simp [← tokens])
    · cases step
  | thenWord =>
    obtain ⟨rfl, step⟩ := Option.ite_none_right_eq_some.1 step
    obtain ⟨b, closed, rfl⟩ := Option.map_eq_some_iff.1 step
    exact (State.Covers.command (.thenPart waiting (opened.closeExpr phrase closed))).cast
      (by simp [Purpose.tokens])
  | doWord =>
    obtain ⟨rfl, step⟩ := Option.ite_none_right_eq_some.1 step
    obtain ⟨b, closed, rfl⟩ := Option.map_eq_some_iff.1 step
    exact (State.Covers.command (.body waiting (opened.closeExpr phrase closed))).cast
      (by simp [Purpose.tokens])
  | _ => cases step

/-- After a command. -/
lemma Waiting.stepDone {c : Com} {ks ts us t s} (waiting : Waiting ks ts)
    (phrase : Phrase .simple us c.node) (step : Surface.stepDone c ks t = some s) :
    s.Covers (ts ++ us ++ [t]) := by
  cases t with
  | semi =>
    cases step
    exact .command (.after waiting phrase)
  | elseWord =>
    simp only [Surface.stepDone] at step
    split at step
    · next c b ks eq =>
      cases step
      obtain ⟨ts', us', waiting', first, tokens⟩ := waiting.closeSequence (.single phrase) eq
      cases waiting' with
      | thenPart outer cond =>
        exact (State.Covers.command (.elsePart outer cond first)).cast (by simp [← tokens])
    · cases step
  | fiWord =>
    simp only [Surface.stepDone] at step
    split at step
    · next d b c ks eq =>
      cases step
      obtain ⟨ts', us', waiting', second, tokens⟩ := waiting.closeSequence (.single phrase) eq
      cases waiting' with
      | elsePart outer cond first =>
        exact (State.Covers.done outer (.cond cond first second)).cast (by simp [← tokens])
    · cases step
  | endWord =>
    simp only [Surface.stepDone] at step
    split at step
    · next c b ks eq =>
      cases step
      obtain ⟨ts', us', waiting', body, tokens⟩ := waiting.closeSequence (.single phrase) eq
      cases waiting' with
      | body outer cond =>
        exact (State.Covers.done outer (.loop cond body)).cast (by simp [← tokens])
    · cases step
  | _ => cases step

/-- The complete command of a state is the last thing that was taken. -/
lemma State.Covers.complete {s : State} {ts c ks} (covers : s.Covers ts)
    (complete : s.complete? = some (c, ks)) :
    ∃ ts' us, Waiting ks ts' ∧ Phrase .simple us c.node ∧ ts' ++ us = ts := by
  cases covers with
  | command | target | operand | digits => cases complete
  | done waiting phrase =>
    cases complete
    exact ⟨_, _, waiting, phrase, rfl⟩
  | @operator x fs p ks ts us vs waiting opened phrase =>
    cases p with
    | cond | loop => cases complete
    | assign y =>
      obtain ⟨e, closed, eq⟩ := Option.map_eq_some_iff.1 complete
      cases eq
      exact ⟨ts, _, waiting, .assign (opened.closeExpr phrase closed), rfl⟩

/-- A token that is taken is added to what the state stands for. -/
lemma State.Covers.step {s s' : State} {ts t pos} (covers : s.Covers ts)
    (step : s.step t pos = some s') : s'.Covers (ts ++ [t]) := by
  have whole := covers
  cases covers with
  | command waiting => exact waiting.stepCommand step
  | target waiting =>
    obtain ⟨rfl, step⟩ := Option.ite_none_right_eq_some.1 step
    cases step
    exact (State.Covers.operand (p := .assign _) waiting .nil).cast (by simp [Purpose.tokens])
  | operand waiting opened => exact opened.stepOperand waiting step
  | digits waiting opened =>
    cases t with
    | int n =>
      cases step
      exact (State.Covers.operator waiting opened .negative).cast (by simp)
    | _ => cases step
  | done waiting phrase => exact waiting.stepDone phrase step
  | operator waiting opened phrase =>
    rcases Option.or_eq_some_iff.1 step with goesOn | ⟨_, ends⟩
    · exact opened.stepOperator waiting phrase goesOn
    · obtain ⟨⟨c, ks⟩, complete, next⟩ := Option.bind_eq_some_iff.1 ends
      obtain ⟨ts', us', waiting', command, tokens⟩ := whole.complete complete
      exact tokens ▸ waiting'.stepDone command next

/-- A state stands for all the tokens it has taken. -/
lemma State.Covers.takes {s s' : State} {ts} {lts : List (Token × Pos)} (covers : s.Covers ts)
    (taken : s.takes lts = some s') : s'.Covers (ts ++ lts.map (·.1)) := by
  induction lts generalizing s ts with
  | nil =>
    cases taken
    exact covers.cast (by simp)
  | cons t lts ih =>
    obtain ⟨s₁, step, rest⟩ := Option.bind_eq_some_iff.1 taken
    exact (ih (covers.step step) rest).cast (by simp)

/-- A state in which the text may end stands for a program. -/
lemma State.Covers.finish {s : State} {ts c} (covers : s.Covers ts) (finish : s.finish = some c) :
    Phrase .command ts c.node := by
  rw [State.finish] at finish
  split at finish
  · next d ks complete =>
    split at finish
    · next c eq =>
      cases finish
      obtain ⟨ts', us, waiting, command, rfl⟩ := covers.complete complete
      obtain ⟨ts'', us', waiting', program, tokens⟩ := waiting.closeSequence (.single command) eq
      cases waiting'
      exact tokens ▸ program
    · cases finish
  · cases finish

/-- Reading succeeds by taking every token up to the end of the text. -/
lemma State.of_read {s : State} {lexemes c} (read : s.read lexemes = .ok c) :
    ∃ last lts s', lexemes = .ofList last lts ∧ s.takes lts = some s' ∧ s'.finish = some c := by
  induction lexemes generalizing s with
  | finished last =>
    rw [State.read] at read
    split at read
    · next finish =>
      cases read
      exact ⟨last, [], s, rfl, rfl, finish⟩
    · cases read
  | stray => cases read
  | next t pos rest ih =>
    rw [State.read] at read
    split at read
    · next s₁ step =>
      obtain ⟨last, lts, s', rfl, taken, finish⟩ := ih read
      exact ⟨last, (t, pos) :: lts, s', rfl, by rw [State.takes_cons step, taken], finish⟩
    · cases read

/-- What is read as a program is one. -/
lemma phrase_of_read {lexemes c} (read : (State.command []).read lexemes = .ok c) :
    ∃ last lts, lexemes = .ofList last lts ∧ Phrase .command (lts.map (·.1)) c.node := by
  obtain ⟨last, lts, s, rfl, taken, finish⟩ := State.of_read read
  have covers : s.Covers ([] ++ lts.map (·.1)) := (State.Covers.command .nil).takes taken
  exact ⟨last, lts, rfl, covers.finish finish⟩

end ImpSSA.Surface
