import ImpSSA.Node.Render
import ImpSSA.Proofs.Node.Parts
import ImpSSA.Proofs.Node.Run
import ImpSSA.Proofs.Surface.Writing

/-!
# Parsing what was printed

The text of a command is written with its tokens (`WellSorted.writes`), and these form a program whose
tree is the command with its sequences nested to the right (`WellSorted.leads`). Parsing undoes
printing up to that nesting: `parse_render`.
-/

namespace ImpSSA
open Surface

/-- What may come next where a node of the category starts. -/
def Category.mode : Category → Mode
  | .arith | .bool => .operand
  | .command => .command

namespace Node

/-- Every name of a node can be written where it stands. -/
structure Writable (n : Node) : Prop where
  assigned : ∀ x ∈ n.assigned, isIdentifier x = true ∧ x ∉ ["SKIP", "IF", "WHILE"]
  reads : ∀ x ∈ n.reads, isIdentifier x = true ∧ x ∉ ["true", "false"]

/-- The commands that a tree of sequences holds, with the sequences in them nested to the right. -/
def parts : Node → List Node
  | .seq c d => c.parts ++ d.parts
  | .cond b c d => [.cond b (sequence c.parts) (sequence d.parts)]
  | .loop b c => [.loop b (sequence c.parts)]
  | n => [n]

/-- A command with all of its sequences nested to the right. -/
def renested (c : Node) : Node := sequence c.parts

/-- What can be written has children that can be. -/
lemma Writable.child {n d : Node} (names : n.Writable) (mem : d ∈ n.children) : d.Writable := by
  obtain ⟨_, assigned, reads⟩ := names_of_child mem
  exact ⟨fun x mem => names.assigned x (assigned mem), fun x mem => names.reads x (reads mem)⟩

/-- A command has at least one part. -/
lemma parts_ne_nil {c : Node} : c.parts ≠ [] := by
  induction c with
  | seq c d ihc ihd => exact List.append_ne_nil_of_left_ne_nil ihc _
  | _ => exact List.cons_ne_nil _ _

/-- The parts of a command are commands. -/
lemma WellSorted.parts {c} (ws : WellSorted .command c) : Sorted c.parts := by
  induction c with
  | skip | assign => exact List.forall_mem_singleton.2 ws
  | seq c d ihc ihd =>
    cases ws with
    | seq wsc wsd => exact List.forall_mem_append.2 ⟨ihc wsc, ihd wsd⟩
  | cond b c d _ ihc ihd =>
    cases ws with
    | cond wsb wsc wsd =>
      have wsc := sequence_wellSorted (ihc wsc)
      have wsd := sequence_wellSorted (ihd wsd)
      exact List.forall_mem_singleton.2 (.cond wsb wsc wsd)
  | loop b c _ ihc =>
    cases ws with
    | loop wsb wsc =>
      have wsc := sequence_wellSorted (ihc wsc)
      exact List.forall_mem_singleton.2 (.loop wsb wsc)
  | _ => cases ws

/-! ## Tokens -/

/-- A binary expression in parentheses. -/
def binaryTokens (op : BinOp) (ts us : List Token) : List Token :=
  .lparen :: (ts ++ op.token :: us ++ [.rparen])

/-- The tokens that a node is printed with. -/
def tokens : Node → List Token
  | .num (.ofNat n) => [.int n]
  | .num (.negSucc n) => [.lparen, .minus, .int (n + 1), .rparen]
  | .var x => [.name x]
  | .arith op l r => binaryTokens (.arith op) l.tokens r.tokens
  | .bool true => [.trueWord]
  | .bool false => [.falseWord]
  | .cmp op l r => binaryTokens (.cmp op) l.tokens r.tokens
  | .not b => .not :: b.tokens
  | .and l r => binaryTokens .and l.tokens r.tokens
  | .skip => [.skipWord]
  | .assign x e => .name x :: .assign :: e.tokens
  | .seq c d => c.tokens ++ .semi :: d.tokens
  | .cond b c d =>
    .ifWord :: (b.tokens ++ .thenWord :: (c.tokens ++ .elseWord :: (d.tokens ++ [.fiWord])))
  | .loop b c => .whileWord :: (b.tokens ++ .doWord :: (c.tokens ++ [.endWord]))
  | .foreign _ => []

/-- An operand in parentheses or of one token stands for itself at every level. -/
lemma phrase_of_atom {ts e} (phrase : Phrase .atom ts e) : Phrase .negation ts e :=
  .plain (.side (.term (.factor phrase)))

/-- The tokens of an arithmetic expression are an atom. -/
lemma WellSorted.arith_phrase {e} (ws : WellSorted .arith e) : Phrase .atom e.tokens e := by
  induction e with
  | num n =>
    cases n with
    | ofNat n => exact .int
    | negSucc n => exact .paren (.conjunct (phrase_of_atom .negative))
  | var x => exact .var
  | arith op l r ihl ihr =>
    cases ws with
    | arith wsl wsr =>
      have left : Phrase .product l.tokens l := .factor (ihl wsl)
      have right : Phrase .atom r.tokens r := ihr wsr
      have sum : Phrase .sum (l.tokens ++ (BinOp.arith op).token :: r.tokens) (.arith op l r) := by
        cases op with
        | plus => exact .plus (.term left) (.factor right)
        | minus => exact .minus (.term left) (.factor right)
        | times => exact .term (.times left right)
      exact .paren (.conjunct (.plain (.side sum)))
  | _ => cases ws

/-- The tokens of a boolean expression are a negation. -/
lemma WellSorted.bool_phrase {b} (ws : WellSorted .bool b) : Phrase .negation b.tokens b := by
  induction b with
  | bool b =>
    cases b with
    | false => exact phrase_of_atom .falsity
    | true => exact phrase_of_atom .truth
  | cmp op l r =>
    cases ws with
    | cmp wsl wsr =>
      have left : Phrase .sum l.tokens l := .term (.factor wsl.arith_phrase)
      have right : Phrase .sum r.tokens r := .term (.factor wsr.arith_phrase)
      exact phrase_of_atom (.paren (.conjunct (.plain (.cmp left right))))
  | not b ih =>
    cases ws with
    | not ws => exact .not (ih ws)
  | and l r ihl ihr =>
    cases ws with
    | and wsl wsr => exact phrase_of_atom (.paren (.and (.conjunct (ihl wsl)) (ihr wsr)))
  | _ => cases ws

/-- The tokens are a sequence of the commands, by themselves and in front of more commands. -/
structure Leads (ts : List Token) (cs : List Node) : Prop where
  alone : Phrase .command ts (sequence cs)
  before : ∀ us ds, ds ≠ [] → Phrase .command us (sequence ds) →
    Phrase .command (ts ++ .semi :: us) (sequence (cs ++ ds))

/-- A simple command leads, alone or in front of others. -/
lemma leads_of_simple {ts c} (phrase : Phrase .simple ts c) : Leads ts [c] := by
  refine ⟨.single phrase, fun us ds ne rest => ?_⟩
  cases ds with
  | nil => exact absurd rfl ne
  | cons d ds => exact .seq phrase rest

/-- Leading commands one after the other. -/
lemma Leads.append {ts us cs ds} (first : Leads ts cs) (second : Leads us ds) (ne : ds ≠ []) :
    Leads (ts ++ .semi :: us) (cs ++ ds) := by
  refine ⟨first.before us ds ne second.alone, fun vs es ne' rest => ?_⟩
  rw [List.append_assoc, List.append_assoc, List.cons_append]
  exact first.before _ _ (List.append_ne_nil_of_right_ne_nil _ ne') (second.before vs es ne' rest)

/-- The tokens of a command are a program of its parts. -/
lemma WellSorted.leads {c} (ws : WellSorted .command c) : Leads c.tokens c.parts := by
  -- the first half of a sequence is in front of the second, so both fields of `Leads` are needed
  induction c with
  | skip => exact leads_of_simple .skip
  | assign x e =>
    cases ws with
    | assign ws => exact leads_of_simple (.assign (.conjunct (phrase_of_atom ws.arith_phrase)))
  | seq c d ihc ihd =>
    cases ws with
    | seq wsc wsd => exact (ihc wsc).append (ihd wsd) parts_ne_nil
  | cond b c d _ ihc ihd =>
    cases ws with
    | cond wsb wsc wsd =>
      have condition : Phrase .conj b.tokens b := .conjunct wsb.bool_phrase
      exact leads_of_simple (.cond condition (ihc wsc).alone (ihd wsd).alone)
  | loop b c _ ihc =>
    cases ws with
    | loop wsb wsc =>
      have condition : Phrase .conj b.tokens b := .conjunct wsb.bool_phrase
      exact leads_of_simple (.loop condition (ihc wsc).alone)
  | _ => cases ws

/-! ## Text -/

/-- The text is the tokens, whatever goes on after them. -/
def Writes (mode : Mode) (ts : List Token) (text : String) : Prop :=
  ∀ us rest, Written .join us rest → Ends isNameChar rest →
    Written mode (ts ++ us) (text.toList ++ rest)

/-- A character of another kind ends a word. -/
lemma ends_cons {p : Char → Bool} {c rest} (other : p c = false) : Ends p (c :: rest) := by
  rintro d ⟨⟩
  exact other

/-- A space may stand in front. -/
lemma written_space {mode ts text} (written : Written mode ts text) :
    Written mode ts (" ".toList ++ text) := .blank rfl written

/-- A mark or a word between two blanks. -/
lemma written_spaced {m t ts text} (mem : (m, t) ∈ joinMarks) (written : Written t.next ts text) :
    Written .join (t :: ts) ((" " ++ m ++ " ").toList ++ text) := by
  simp only [String.toList_append, List.append_assoc]
  exact written_space (.token (.mark mem) (written_space written))

/-- The word that ends a command. -/
lemma written_closing {m t ts text} (mem : (m, t) ∈ joinMarks) (written : Written t.next ts text) :
    Written .join (t :: ts) ((" " ++ m).toList ++ text) := by
  simp only [String.toList_append, List.append_assoc]
  exact written_space (.token (.mark mem) written)

/-- The word that starts a command. -/
lemma written_opening {w t ts text} (mem : (w, t) ∈ commandWords)
    (written : Written t.next ts text) :
    Written .command (t :: ts) ((w ++ " ").toList ++ text) := by
  simp only [String.toList_append, List.append_assoc]
  exact .token (.word mem (ends_cons rfl)) (written_space written)

/-- A name is written as it is, where no word is the same. -/
lemma writes_name {mode x} (early : mode ≠ .join) (identifier : isIdentifier x = true)
    (free : x ∉ mode.words.map (·.1)) : Writes mode [.name x] x :=
  fun _ _ written ends => .token (.name early identifier free ends) written

/-- A word is written as it is. -/
lemma writes_word {mode : Mode} {w t} (mem : (w, t) ∈ mode.words) (next : t.next = .join) :
    Writes mode [t] w :=
  fun _ _ written ends => .token (.word mem ends) (next ▸ written)

/-- A natural number is written with its digits. -/
lemma writes_nat (n : Nat) : Writes .operand [.int n] (toString n) := by
  intro us rest written ends
  obtain ⟨d, ds, digits⟩ := List.exists_cons_of_ne_nil (Nat.toDigits_ne_nil (n := n) (b := 10))
  have all : ∀ c ∈ d :: ds, isDigit c = true := fun c mem =>
    Nat.isDigit_of_mem_toDigits (by decide) (by decide) (digits ▸ mem)
  have value : digitsValue (d :: ds) = n := by
    rw [← digits]
    exact Nat.ofDigitChars_ten_toDigits
  have stop : Ends isDigit rest := fun c mem => (Bool.or_eq_false_iff.1 (ends c mem)).2
  rw [Nat.toString_eq_ofList_toDigits, String.toList_ofList, digits]
  nth_rewrite 1 [← value]
  exact .token (.int nofun all stop) written

/-- A literal is written as it is rendered, with a sign if it is negative. -/
lemma writes_literal (n : Int) : Writes .operand (tokens (.num n)) (renderLiteral n) := by
  cases n with
  | ofNat n => exact writes_nat n
  | negSucc n =>
    intro us rest written ends
    have text : renderLiteral (.negSucc n) = "(" ++ ("-" ++ toString (n + 1)) ++ ")" :=
      if_pos (Int.negSucc_lt_zero n)
    rw [text]
    simp only [String.toList_append, List.append_assoc]
    apply Written.token (.mark (by decide))
    apply Written.token (.mark (by decide))
    apply writes_nat (n + 1)
    · exact .token (.mark (by decide)) written
    · exact ends_cons rfl

/-- An operation is written in brackets, with spaces around its sign. -/
lemma Writes.binary {op : BinOp} {sym ts us l r} (mem : (sym, op.token) ∈ joinMarks)
    (writesl : Writes .operand ts l) (writesr : Writes .operand us r) :
    Writes .operand (binaryTokens op ts us) (renderBinary l sym r) := by
  intro vs rest written ends
  have next : op.token.next = .operand := by rcases op with (_ | _ | _) | (_ | _) | _ <;> rfl
  simp only [binaryTokens, renderBinary, String.toList_append, List.append_assoc, List.cons_append]
  apply Written.token (.mark (by decide))
  apply writesl
  · apply written_space
    apply Written.token (.mark mem)
    rw [next]
    apply written_space
    apply writesr
    · exact .token (.mark (by decide)) written
    · exact ends_cons rfl
  · exact ends_cons rfl

/-- A negation is written without a space. -/
lemma Writes.not {ts b} (writes : Writes .operand ts b) :
    Writes .operand (.not :: ts) ("!" ++ b) := by
  intro us rest written ends
  rw [String.toList_append, List.append_assoc]
  exact .token (.mark (by decide)) (writes us rest written ends)

/-- An assignment is written with spaces around its sign. -/
lemma Writes.assign {x ts e} (name : Writes .command [.name x] x) (writes : Writes .operand ts e) :
    Writes .command (.name x :: .assign :: ts) (x ++ " := " ++ e) := by
  intro us rest written ends
  simp only [String.toList_append, List.append_assoc]
  apply name
  · exact written_spaced (m := ":=") (by decide) (writes us rest written ends)
  · exact ends_cons rfl

/-- A sequence is written with a space behind its sign. -/
lemma Writes.seq {ts us c d} (writesc : Writes .command ts c) (writesd : Writes .command us d) :
    Writes .command (ts ++ .semi :: us) (c ++ "; " ++ d) := by
  intro vs rest written ends
  simp only [String.toList_append, List.append_assoc, List.cons_append]
  apply writesc
  · show Written .join _ (";".toList ++ (" ".toList ++ _))
    exact .token (.mark (by decide)) (written_space (writesd vs rest written ends))
  · exact ends_cons rfl

/-- A conditional is written with its words. -/
lemma Writes.cond {ts us vs b c d} (writesb : Writes .operand ts b) (writesc : Writes .command us c)
    (writesd : Writes .command vs d) :
    Writes .command (.ifWord :: (ts ++ .thenWord :: (us ++ .elseWord :: (vs ++ [.fiWord]))))
      ("IF " ++ b ++ " THEN " ++ c ++ " ELSE " ++ d ++ " FI") := by
  intro ws rest written ends
  simp only [String.toList_append, List.append_assoc, List.cons_append]
  apply written_opening (w := "IF") (by decide)
  apply writesb
  · apply written_spaced (m := "THEN") (by decide)
    apply writesc
    · apply written_spaced (m := "ELSE") (by decide)
      apply writesd
      · exact written_closing (m := "FI") (by decide) written
      · exact ends_cons rfl
    · exact ends_cons rfl
  · exact ends_cons rfl

/-- A loop is written with its words. -/
lemma Writes.loop {ts us b c} (writesb : Writes .operand ts b) (writesc : Writes .command us c) :
    Writes .command (.whileWord :: (ts ++ .doWord :: (us ++ [.endWord])))
      ("WHILE " ++ b ++ " DO " ++ c ++ " END") := by
  intro vs rest written ends
  simp only [String.toList_append, List.append_assoc, List.cons_append]
  apply written_opening (w := "WHILE") (by decide)
  apply writesb
  · apply written_spaced (m := "DO") (by decide)
    apply writesc
    · exact written_closing (m := "END") (by decide) written
    · exact ends_cons rfl
  · exact ends_cons rfl

/-- A node that can be written is printed with its tokens. -/
lemma WellSorted.writes {k n} (ws : WellSorted k n) (names : n.Writable) :
    ∃ text, n.render = .ok text ∧ Writes k.mode n.tokens text := by
  induction ws with
  | num n => exact ⟨_, rfl, writes_literal n⟩
  | var x =>
    obtain ⟨identifier, free⟩ := names.reads x List.mem_cons_self
    exact ⟨_, rfl, writes_name (by decide) identifier free⟩
  | bool b =>
    cases b with
    | false => exact ⟨_, rfl, writes_word (by decide) rfl⟩
    | true => exact ⟨_, rfl, writes_word (by decide) rfl⟩
  | @arith op l r _ _ ihl ihr | @cmp op l r _ _ ihl ihr =>
    obtain ⟨l', eql, writesl⟩ := ihl (names.child (by simp [children]))
    obtain ⟨r', eqr, writesr⟩ := ihr (names.child (by simp [children]))
    refine ⟨renderBinary l' op.symbol r', by rw [Node.render, eql, eqr]; rfl, ?_⟩
    exact writesl.binary (by cases op <;> decide) writesr
  | @and l r _ _ ihl ihr =>
    obtain ⟨l', eql, writesl⟩ := ihl (names.child (by simp [children]))
    obtain ⟨r', eqr, writesr⟩ := ihr (names.child (by simp [children]))
    refine ⟨renderBinary l' "&&" r', by rw [Node.render, eql, eqr]; rfl, ?_⟩
    exact writesl.binary (by decide) writesr
  | @not b _ ih =>
    obtain ⟨text, eq, writes⟩ := ih (names.child (by simp [children]))
    exact ⟨_, by rw [Node.render, eq]; rfl, writes.not⟩
  | skip => exact ⟨_, rfl, writes_word (by decide) rfl⟩
  | @assign x e _ ih =>
    obtain ⟨text, eq, writes⟩ := ih (names.child (by simp [children]))
    obtain ⟨identifier, free⟩ := names.assigned x List.mem_cons_self
    exact ⟨_, by rw [Node.render, eq]; rfl, .assign (writes_name (by decide) identifier free) writes⟩
  | @seq c d _ _ ihc ihd =>
    obtain ⟨c', eqc, writesc⟩ := ihc (names.child (by simp [children]))
    obtain ⟨d', eqd, writesd⟩ := ihd (names.child (by simp [children]))
    exact ⟨_, by rw [Node.render, eqc, eqd]; rfl, writesc.seq writesd⟩
  | @cond b c d _ _ _ ihb ihc ihd =>
    obtain ⟨b', eqb, writesb⟩ := ihb (names.child (by simp [children]))
    obtain ⟨c', eqc, writesc⟩ := ihc (names.child (by simp [children]))
    obtain ⟨d', eqd, writesd⟩ := ihd (names.child (by simp [children]))
    exact ⟨_, by rw [Node.render, eqb, eqc, eqd]; rfl, writesb.cond writesc writesd⟩
  | @loop b c _ _ ihb ihc =>
    obtain ⟨b', eqb, writesb⟩ := ihb (names.child (by simp [children]))
    obtain ⟨c', eqc, writesc⟩ := ihc (names.child (by simp [children]))
    exact ⟨_, by rw [Node.render, eqb, eqc]; rfl, writesb.loop writesc⟩

/-- A well-sorted command whose names can be written is printed, and parsing the text gives the command
with all of its sequences nested to the right. -/
theorem parse_render {c : Node} (ws : c.WellSorted .command) (names : c.Writable) :
    ∃ text, c.render = .ok text ∧ parse text = .ok c.renested := by
  obtain ⟨text, rendered, writes⟩ := ws.writes names
  have written := writes [] [] .done nofun
  rw [List.append_nil, List.append_nil] at written
  exact ⟨text, rendered, parse_of_written ws.leads.alone written (sequence_wellSorted ws.parts)⟩

/-- A sequence that is nested to the left and ends with a loop over such a sequence, with names that
are words in other places. -/
def leftNested : Node :=
  .seq (.seq (.assign "true" (.num (-3))) (.assign "THEN" (.arith .minus (.var "IF") (.num (-1)))))
    (.loop (.not (.not (.and (.bool true) (.cmp .le (.var "SKIP") (.num 0)))))
      (.seq (.seq .skip (.assign "END" (.var "END"))) .skip))

/-- The sequences of `leftNested` come back nested to the right, and nothing else changes. -/
theorem leftNested_parse_render :
    leftNested.WellSorted .command ∧ leftNested.Writable ∧
    ∃ text, leftNested.render = .ok text ∧ parse text = .ok
      (.seq (.assign "true" (.num (-3)))
        (.seq (.assign "THEN" (.arith .minus (.var "IF") (.num (-1))))
          (.loop (.not (.not (.and (.bool true) (.cmp .le (.var "SKIP") (.num 0)))))
            (.seq .skip (.seq (.assign "END" (.var "END")) .skip))))) := by
  have ws : leftNested.WellSorted .command := by
    repeat constructor
  have names : leftNested.Writable := ⟨by decide, by decide⟩
  exact ⟨ws, names, parse_render ws names⟩

end Node

end ImpSSA
