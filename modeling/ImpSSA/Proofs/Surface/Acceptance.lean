import ImpSSA.Proofs.Surface.Derivation
import ImpSSA.Proofs.Surface.RoundTrip
import ImpSSA.Proofs.Surface.Spacing

/-!
# What the parser accepts

In the tokens of a program each name stands where the grammar reads or assigns it, so that the tokens
are allowed where they stand exactly if the names of the tree can be written (`Phrase.decides`). The
check of categories passes well-sorted trees and refuses all others (`Com.checks`). Together with
what is known about scanning and parsing, a text is accepted exactly if it is a program of the grammar,
laid out with separators, whose tree is well sorted (`parse_eq_ok_iff`).
-/

namespace ImpSSA
open Surface

namespace Node

/-- What it takes to write a tree, in terms of the names it assigns and reads. -/
lemma writable_iff {n : Node} :
    n.Writable ↔ (∀ x ∈ n.assigned, isIdentifier x = true ∧ x ∉ ["SKIP", "IF", "WHILE"]) ∧
      ∀ x ∈ n.reads, isIdentifier x = true ∧ x ∉ ["true", "false"] :=
  ⟨fun names => ⟨names.assigned, names.reads⟩, fun ⟨assigned, reads⟩ => ⟨assigned, reads⟩⟩

/-- A variable is an identifier and no word for a truth value. -/
lemma writable_var {x : String} :
    (Node.var x).Writable ↔ isIdentifier x = true ∧ x ∉ ["true", "false"] := by
  simp only [writable_iff, assigned, reads, List.forall_mem_singleton]
  tauto

/-- A negation is written if what it negates is. -/
lemma writable_not {b : Node} : (Node.not b).Writable ↔ b.Writable := by
  simp only [writable_iff, assigned, reads]

/-- An operation is written if its operands are. -/
lemma writable_binary {op : BinOp} {l r : Node} :
    (op.node l r).Writable ↔ l.Writable ∧ r.Writable := by
  rcases op with _ | _ | _ <;>
    simp only [BinOp.node, writable_iff, assigned, reads, List.forall_mem_append] <;>
    tauto

/-- An assignment is to an identifier that is no word which begins a command. -/
lemma writable_assign {x : String} {e : Node} :
    (Node.assign x e).Writable ↔
      (isIdentifier x = true ∧ x ∉ ["SKIP", "IF", "WHILE"]) ∧ e.Writable := by
  simp only [writable_iff, assigned, reads, List.forall_mem_cons]
  tauto

/-- A sequence is written if its commands are. -/
lemma writable_seq {c d : Node} : (Node.seq c d).Writable ↔ c.Writable ∧ d.Writable := by
  simp only [writable_iff, assigned, reads, List.forall_mem_append]
  tauto

/-- A conditional is written if its condition and branches are. -/
lemma writable_cond {b c d : Node} :
    (Node.cond b c d).Writable ↔ b.Writable ∧ c.Writable ∧ d.Writable := by
  simp only [writable_iff, assigned, reads, List.forall_mem_append]
  tauto

/-- A loop is written if its condition and body are. -/
lemma writable_loop {b c : Node} : (Node.loop b c).Writable ↔ b.Writable ∧ c.Writable := by
  simp only [writable_iff, assigned, reads, List.forall_mem_append]
  tauto

end Node

namespace Surface

/-! ## Names where they stand -/

/-- What may come next where a phrase of the level starts. -/
def Level.mode : Level → Mode
  | .command | .simple => .command
  | .conj | .negation | .comparison | .sum | .product | .atom => .operand

/-- The tokens, with any others after them, are allowed under the condition. -/
def Mode.Decides (mode : Mode) (ts : List Token) (P : Prop) : Prop :=
  ∀ us, mode.AllowsAll (ts ++ us) ↔ P ∧ Mode.join.AllowsAll us

section
variable {mode : Mode} {t : Token} {ts us : List Token} {P Q : Prop}

/-- Conditions that are equivalent decide the same. -/
lemma Mode.Decides.congr (decides : mode.Decides ts P) (iff : P ↔ Q) : mode.Decides ts Q :=
  propext iff ▸ decides

/-- A token behind which an expression or a command is complete. -/
lemma decides_token (here : mode.Allows t ↔ P) (next : t.next = .join) : mode.Decides [t] P := by
  intro us
  rw [List.singleton_append, Mode.AllowsAll, next, here]

/-- A token that is allowed in any case, in front of others. -/
lemma Mode.Decides.front (rest : t.next.Decides ts P) (here : mode.Allows t) :
    mode.Decides (t :: ts) P := by
  intro us
  rw [List.cons_append, AllowsAll, rest us, and_iff_right here]

/-- Two parts with a token between them that is allowed in any case. -/
lemma Mode.Decides.join (first : mode.Decides ts P) (here : Mode.join.Allows t)
    (second : t.next.Decides us Q) : mode.Decides (ts ++ t :: us) (P ∧ Q) := by
  intro vs
  rw [List.append_assoc, first, List.cons_append, AllowsAll, second vs, and_iff_right here, and_assoc]

/-- A part with a token behind it that is allowed in any case. -/
lemma Mode.Decides.close (first : mode.Decides ts P) (here : Mode.join.Allows t)
    (next : t.next = .join) : mode.Decides (ts ++ [t]) P := by
  intro us
  rw [List.append_assoc, first, List.singleton_append, AllowsAll, next, and_iff_right here]

end

/-- An operator between its operands. -/
lemma decides_binary (op : BinOp) {ts us l r} (left : Mode.operand.Decides ts l.Writable)
    (right : Mode.operand.Decides us r.Writable) :
    Mode.operand.Decides (ts ++ op.token :: us) (op.node l r).Writable := by
  have here : Mode.join.Allows op.token := by
    rcases op with (_ | _ | _) | (_ | _) | _ <;> exact .inr (by decide)
  have next : op.token.next = .operand := by rcases op with (_ | _ | _) | (_ | _) | _ <;> rfl
  exact (left.join here (next ▸ right)).congr Node.writable_binary.symm

/-- The tokens of a phrase are allowed where it stands if the names of its tree can be written. -/
lemma Phrase.decides {level ts e} (phrase : Phrase level ts e) :
    level.mode.Decides ts e.Writable := by
  -- trees without names can always be written
  have unnamed {e : Node} (assigned : e.assigned = []) (reads : e.reads = []) : e.Writable :=
    Node.writable_iff.2 (by simp [assigned, reads])
  induction phrase with
  | int => exact decides_token (iff_of_true nofun (unnamed rfl rfl)) rfl
  | @negative n =>
    have digits : Mode.operand.Decides [.int n] (Node.num (-n)).Writable :=
      decides_token (iff_of_true nofun (unnamed rfl rfl)) rfl
    exact digits.front (t := .minus) (.inr (by decide))
  | var => exact decides_token ((and_iff_right nofun).trans Node.writable_var.symm) rfl
  | truth | falsity => exact decides_token (iff_of_true (.inl (by decide)) (unnamed rfl rfl)) rfl
  | paren _ ih =>
    have inside := ih.close (t := .rparen) (.inr (by decide)) rfl
    exact inside.front (t := .lparen) (.inr (by decide))
  | factor _ ih | term _ ih | side _ ih | plain _ ih | conjunct _ ih | single _ ih => exact ih
  | times _ _ ihl ihr => exact decides_binary (.arith .times) ihl ihr
  | plus _ _ ihl ihr => exact decides_binary (.arith .plus) ihl ihr
  | minus _ _ ihl ihr => exact decides_binary (.arith .minus) ihl ihr
  | cmp _ _ ihl ihr => exact decides_binary (.cmp _) ihl ihr
  | and _ _ ihl ihr => exact decides_binary .and ihl ihr
  | not _ ih => exact (ih.front (t := .not) (.inr (by decide))).congr Node.writable_not.symm
  | skip => exact decides_token (iff_of_true (.inl (by decide)) (unnamed rfl rfl)) rfl
  | @assign x ts e _ ih =>
    have name : Mode.command.Decides [.name x]
        (isIdentifier x = true ∧ x ∉ ["SKIP", "IF", "WHILE"]) :=
      decides_token (and_iff_right nofun) rfl
    exact (name.join (t := .assign) (.inr (by decide)) ih).congr Node.writable_assign.symm
  | cond _ _ _ ihb ihc ihd =>
    have second := ihd.close (t := .fiWord) (.inr (by decide)) rfl
    have branches := ihc.join (t := .elseWord) (.inr (by decide)) second
    have whole := ihb.join (t := .thenWord) (.inr (by decide)) branches
    exact (whole.front (t := .ifWord) (.inl (by decide))).congr Node.writable_cond.symm
  | loop _ _ ihb ihc =>
    have body := ihc.close (t := .endWord) (.inr (by decide)) rfl
    have whole := ihb.join (t := .doWord) (.inr (by decide)) body
    exact (whole.front (t := .whileWord) (.inl (by decide))).congr Node.writable_loop.symm
  | seq _ _ ihc ihd =>
    exact (ihc.join (t := .semi) (.inr (by decide)) ihd).congr Node.writable_seq.symm

/-! ## The check of categories -/

/-- The value is passed and has the property, or something in it is misplaced. -/
def Checks {α : Type} (x : Except ParseError α) (a : α) (P : Prop) : Prop :=
  (x = .ok a ∧ P) ∨ ∃ k pos, x = .error (.misplaced k pos)

/-- A result that is what it has to be. -/
lemma checks_ok {α : Type} {a : α} {P : Prop} (holds : P) : Checks (.ok a) a P := .inl ⟨rfl, holds⟩

/-- Checks one after the other. -/
lemma Checks.bind {α β : Type} {x : Except ParseError α} {f : α → Except ParseError β} {a b P Q}
    (first : Checks x a P) (rest : P → Checks (f a) b Q) : Checks (x >>= f) b Q := by
  rcases first with ⟨rfl, holds⟩ | ⟨k, pos, rfl⟩
  · exact rest holds
  · exact .inr ⟨k, pos, rfl⟩

/-- A tree is of the expected category, or misplaced. -/
lemma checks_expect {k pos n} : Checks (expect k pos n) n (n.category = k) := by
  by_cases category : n.category = k
  · exact .inl ⟨if_pos category, category⟩
  · exact .inr ⟨k, pos, if_neg category⟩

/-- An operand that belongs to a category is checked before what comes after it. -/
lemma Checks.operand {e : Expr} {k} {β : Type} {f : Node → Except ParseError β} {b Q}
    (inner : Checks e.toNode e.node (e.node.WellSorted e.node.category))
    (rest : e.node.WellSorted k → Checks (f e.node) b Q) :
    Checks (e.toNode >>= fun n => expect k e.pos n >>= f) b Q := by
  refine inner.bind fun ws => checks_expect.bind fun category => rest ?_
  exact category ▸ ws

/-- The check passes well-sorted expressions only. -/
lemma Expr.checks (e : Expr) : Checks e.toNode e.node (e.node.WellSorted e.node.category) := by
  induction e with
  | int pos n => exact checks_ok (.num n)
  | var pos x => exact checks_ok (.var x)
  | bool pos b => exact checks_ok (.bool b)
  | not pos e ih => exact ih.operand fun ws => checks_ok (.not ws)
  | binary pos op l r ihl ihr =>
    refine ihl.operand fun wsl => ihr.operand fun wsr => checks_ok ?_
    cases op with
    | arith => exact .arith wsl wsr
    | cmp => exact .cmp wsl wsr
    | and => exact .and wsl wsr

/-- The check passes well-sorted commands only. -/
lemma Com.checks (c : Com) : Checks c.toNode c.node (c.node.WellSorted .command) := by
  induction c with
  | skip => exact checks_ok .skip
  | assign x e => exact e.checks.operand fun ws => checks_ok (.assign ws)
  | seq c d ihc ihd => exact ihc.bind fun wsc => ihd.bind fun wsd => checks_ok (.seq wsc wsd)
  | cond b c d ihc ihd =>
    apply b.checks.operand
    intro wsb
    exact ihc.bind fun wsc => ihd.bind fun wsd => checks_ok (.cond wsb wsc wsd)
  | loop b c ihc =>
    apply b.checks.operand
    intro wsb
    exact ihc.bind fun wsc => checks_ok (.loop wsb wsc)

/-! ## Accepted texts -/

/-- A text that is written with the tokens of a program is read as a command with its tree. -/
lemma Phrase.readProgram {text : String} {ts e} (phrase : Phrase .command ts e)
    (written : Written .command ts text.toList) : ∃ c, readProgram text = .ok c ∧ c.node = e := by
  obtain ⟨last, lts, scanned, rfl⟩ := written.scan_eq .start .start
  obtain ⟨c, read, node⟩ := phrase.read_program last
  exact ⟨c, by rw [Surface.readProgram, tokens, scanned, read], node⟩

/-- What is read as a command is written with the tokens of a program. -/
lemma written_of_readProgram {text : String} {c} (read : readProgram text = .ok c) :
    ∃ ts, Phrase .command ts c.node ∧ Written .command ts text.toList := by
  obtain ⟨last, lts, scanned, phrase⟩ := phrase_of_read read
  exact ⟨_, phrase, written_of_scan scanned⟩

/-- A text is written for a program if its names can be and it is laid out. -/
lemma Phrase.written_iff {ts c} {text : List Char} (phrase : Phrase .command ts c) :
    Written .command ts text ↔ c.Writable ∧ LaidOut Token.runsInto none ts text := by
  have names : Mode.command.AllowsAll (ts ++ []) ↔ c.Writable ∧ True := phrase.decides []
  rw [List.append_nil, and_true] at names
  rw [Surface.written_iff, names]

/-- The parser accepts the well-sorted programs of the grammar, laid out with separators. -/
lemma parse_eq_ok_iff {text : String} {c : Node} :
    Node.parse text = .ok c ↔ c.WellSorted .command ∧
      ∃ ts, Phrase .command ts c ∧ c.Writable ∧ LaidOut Token.runsInto none ts text.toList := by
  constructor
  · intro parsed
    obtain ⟨d, read, checked⟩ := bind_eq_ok.1 parsed
    obtain ⟨ts, phrase, written⟩ := written_of_readProgram read
    rcases d.checks with ⟨passed, ws⟩ | ⟨k, pos, failed⟩
    · cases passed.symm.trans checked
      exact ⟨ws, ts, phrase, phrase.written_iff.1 written⟩
    · cases failed.symm.trans checked
  · rintro ⟨ws, ts, phrase, laid⟩
    exact parse_of_written phrase (phrase.written_iff.2 laid) ws

/-- A program of the grammar that is not well sorted is refused at something misplaced. -/
lemma Phrase.parse_misplaced {text : String} {ts c} (phrase : Phrase .command ts c)
    (written : Written .command ts text.toList) (ill : ¬ c.WellSorted .command) :
    ∃ k pos, Node.parse text = .error (.misplaced k pos) := by
  obtain ⟨d, read, rfl⟩ := phrase.readProgram written
  rcases d.checks with ⟨_, ws⟩ | ⟨k, pos, failed⟩
  · exact absurd ws ill
  · exact ⟨k, pos, bind_eq_error.2 (.inr ⟨d, read, failed⟩)⟩

/-- The parser accepts exactly the grammar. A program whose words stand apart is read as its tree if
that is well sorted, and refused for something misplaced if it is not. The accepted texts are the
well-sorted programs in which names, and words that could be names, stand apart from the word behind
them; the result is the tree. -/
theorem parse_exactly_grammar (text : String) :
    (∀ ts c, Phrase .command ts c → c.Writable → LaidOut Token.bothWords none ts text.toList →
      (c.WellSorted .command → Node.parse text = .ok c) ∧
      (¬ c.WellSorted .command → ∃ k pos, Node.parse text = .error (.misplaced k pos))) ∧
    ∀ c, Node.parse text = .ok c ↔ c.WellSorted .command ∧
      ∃ ts, Phrase .command ts c ∧ c.Writable ∧ LaidOut Token.runsInto none ts text.toList := by
  refine ⟨fun ts c phrase names laid => ?_, fun c => parse_eq_ok_iff⟩
  have fewer := laid.mono fun _ _ => Token.bothWords_of_runsInto
  refine ⟨fun ws => parse_eq_ok_iff.2 ⟨ws, ts, phrase, names, fewer⟩, ?_⟩
  exact phrase.parse_misplaced (phrase.written_iff.2 ⟨names, fewer⟩)

/-- An endless loop is read, a negated number is misplaced, and a text with fewer blanks that is read has
a layout as well. -/
theorem endlessLoop_exactly_grammar :
    Node.parse "WHILE true DO SKIP#\nEND" = .ok (.loop (.bool true) .skip) ∧
    (∃ k pos, Node.parse "X:=!01" = .error (.misplaced k pos)) ∧
    ∃ ts, Phrase .command ts (.cond (.bool true) (.assign "X" (.num 3)) .skip) ∧
      LaidOut Token.runsInto none ts "IF(true)THENX:=3ELSESKIP FI".toList := by
  have space : Separator [' '] := .blank (by decide) .nil
  have comment : Separator ('#' :: ([] ++ '\n' :: [])) := .comment List.not_mem_nil .nil
  have parsed : Node.parse "IF(true)THENX:=3ELSESKIP FI" =
      .ok (.cond (.bool true) (.assign "X" (.num 3)) .skip) := rfl
  refine ⟨?_, ?_, ?_⟩
  · have phrase : Phrase .command [.whileWord, .trueWord, .doWord, .skipWord, .endWord]
        (.loop (.bool true) .skip) :=
      .single (.loop (.conjunct (Node.phrase_of_atom .truth)) (.single .skip))
    have laid : LaidOut Token.bothWords none [.whileWord, .trueWord, .doWord, .skipWord, .endWord]
        ([] ++ ("WHILE".toList ++ ([' '] ++ ("true".toList ++ ([' '] ++ ("DO".toList ++ ([' '] ++
          ("SKIP".toList ++ ('#' :: ([] ++ '\n' :: []) ++ ("END".toList ++ [])))))))))) := by
      refine .token .nil nofun (.text rfl) ?_
      refine .token space (fun _ _ _ => List.cons_ne_nil _ _) (.text rfl) ?_
      refine .token space (fun _ _ _ => List.cons_ne_nil _ _) (.text rfl) ?_
      refine .token space (fun _ _ _ => List.cons_ne_nil _ _) (.text rfl) ?_
      refine .token comment (fun _ _ _ => List.cons_ne_nil _ _) (.text rfl) ?_
      exact .done .nil
    have complete := (parse_exactly_grammar "WHILE true DO SKIP#\nEND").1 _ _ phrase
    exact (complete ⟨by decide, by decide⟩ laid).1 (.loop (.bool _) .skip)
  · have phrase : Phrase .command [.name "X", .assign, .not, .int 1] (.assign "X" (.not (.num 1))) :=
      .single (.assign (.conjunct (.not (Node.phrase_of_atom .int))))
    have number : Token.Spelled (.int (Nat.ofDigitChars 10 ['0', '1'] 0)) ['0', '1'] :=
      .digits (List.cons_ne_nil _ _) (List.all_eq_true.1 rfl)
    have laid : LaidOut Token.bothWords none [.name "X", .assign, .not, .int 1]
        ([] ++ ("X".toList ++ ([] ++ (":=".toList ++ ([] ++ ("!".toList ++ ([] ++
          (['0', '1'] ++ [])))))))) := by
      refine .token .nil nofun (.text rfl) ?_
      refine .token .nil nofun (.text rfl) ?_
      refine .token .nil nofun (.text rfl) ?_
      refine .token .nil nofun number ?_
      exact .done .nil
    have complete := (parse_exactly_grammar "X:=!01").1 _ _ phrase
    refine (complete ⟨by decide, by decide⟩ laid).2 ?_
    intro ws
    cases ws with
    | assign operand => cases operand
  · obtain ⟨_, ts, phrase, _, laid⟩ := ((parse_exactly_grammar _).2 _).1 parsed
    exact ⟨ts, phrase, laid⟩

end Surface
end ImpSSA
