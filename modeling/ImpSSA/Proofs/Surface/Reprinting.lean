import ImpSSA.CodeGen.Compile
import ImpSSA.Proofs.Node.BigStep
import ImpSSA.Proofs.Surface.Acceptance

/-!
# Printing and parsing again

Parsing the text of a command gives the command with its sequences nested to the right. `Reassoc c d`
says that `d` is `c` with some sequences nested further to the right, and every command is related to
the one that comes back (`reassoc_renested`). Such commands have the same names, the same code and the
same evaluations at the same cost, so the command that comes back has the same meaning
(`reparsed_meaning`). What the parser returns is nested to the right already (`Phrase.rightNested`), so
it comes back as it is (`reparsed_stable`).
-/

namespace ImpSSA
open Surface

namespace Node

/-! ## Sequences nested to the right -/

/-- Some sequences are nested further to the right. -/
inductive Reassoc : Node → Node → Prop where
  | refl {c} :
    Reassoc c c
  | trans {c d e} :
    Reassoc c d →
    Reassoc d e →
    Reassoc c e
  | assoc {c d e} :
    Reassoc (.seq (.seq c d) e) (.seq c (.seq d e))
  | seq {c c' d d'} :
    Reassoc c c' →
    Reassoc d d' →
    Reassoc (.seq c d) (.seq c' d')
  | cond {b c c' d d'} :
    Reassoc c c' →
    Reassoc d d' →
    Reassoc (.cond b c d) (.cond b c' d')
  | loop {b c c'} :
    Reassoc c c' →
    Reassoc (.loop b c) (.loop b c')

/-- Two sequences are nested to the right as one. -/
lemma reassoc_append {cs ds : List Node} (ne : cs ≠ []) (ne' : ds ≠ []) :
    Reassoc (.seq (sequence cs) (sequence ds)) (sequence (cs ++ ds)) := by
  induction cs with
  | nil => exact absurd rfl ne
  | cons c cs ih =>
    rw [List.cons_append, sequence_cons (List.append_ne_nil_of_right_ne_nil cs ne')]
    by_cases last : cs = []
    · subst last
      exact .refl
    · rw [sequence_cons last]
      exact .trans .assoc (.seq .refl (ih last))

/-- A command with all of its sequences nested to the right. -/
lemma reassoc_renested (c : Node) : Reassoc c c.renested := by
  induction c with
  | seq c d ihc ihd => exact .trans (.seq ihc ihd) (reassoc_append parts_ne_nil parts_ne_nil)
  | cond b c d _ ihc ihd => exact .cond ihc ihd
  | loop b c _ ihc => exact .loop ihc
  | _ => exact .refl

/-! ## Code -/

/-- Nesting differently uses the same names in the same order. -/
lemma Reassoc.names {c d} (h : Reassoc c d) : c.names = d.names := by
  induction h with
  | refl => rfl
  | trans _ _ ih ih' => rw [ih, ih']
  | assoc => exact List.append_assoc ..
  | seq _ _ ihc ihd => rw [Node.names, Node.names, ihc, ihd]
  | cond _ _ ihc ihd => rw [Node.names, Node.names, ihc, ihd]
  | loop _ ih => rw [Node.names, Node.names, ih]

/-- Nested in another way, the parts of a sequence emit the same code. -/
lemma Reassoc.lowerCommand {c d} (h : Reassoc c d) (ctx : Context) :
    c.lowerCommand ctx = d.lowerCommand ctx := by
  induction h with
  | refl => rfl
  | trans _ _ ih ih' => rw [ih, ih']
  | assoc => exact bind_assoc ..
  | seq _ _ ihc ihd => rw [Node.lowerCommand, Node.lowerCommand, ihc, ihd]
  | cond _ _ ihc ihd => rw [Node.lowerCommand, Node.lowerCommand, ihc, ihd]
  | loop _ ih => rw [Node.lowerCommand, Node.lowerCommand, ih]

/-- Nested in another way, a command is compiled to the same program or fails in the same way. -/
lemma Reassoc.compile {c d} (h : Reassoc c d) (entry : IR.Key) (prints : Bool)
    (declared : Option (List String)) :
    c.compile entry prints declared = d.compile entry prints declared := by
  have storage : c.storage declared = d.storage declared := by
    cases declared with
    | none => rw [Node.storage, Node.storage, vars_eq_sortNames, vars_eq_sortNames, h.names]
    | some => rfl
  have generate : c.generate prints (d.storage declared) = d.generate prints (d.storage declared) := by
    simp only [Node.generate, h.lowerCommand]
  rw [Node.compile, Node.compile, storage, generate]

/-! ## Evaluations -/

/-- The cost of three commands in sequence does not depend on how they are nested. -/
lemma evals_assoc {c d e σ n σ'} :
    Evals (.seq (.seq c d) e) σ n σ' ↔ Evals (.seq c (.seq d e)) σ n σ' := by
  simp only [evals_seq_iff]
  constructor
  · rintro ⟨_, σ₂, k, ⟨i, σ₁, j, first, second, rfl⟩, third, rfl⟩
    exact ⟨i, σ₁, _, first, ⟨j, σ₂, k, second, third, rfl⟩, by omega⟩
  · rintro ⟨i, σ₁, _, first, ⟨j, σ₂, k, second, third, rfl⟩, rfl⟩
    exact ⟨_, σ₂, k, ⟨i, σ₁, j, first, second, rfl⟩, third, by omega⟩

/-- A conditional is evaluated alike if its branches are. -/
lemma evals_cond_congr {b c c' d d' σ n σ'} (first : ∀ {σ n σ'}, Evals c σ n σ' → Evals c' σ n σ')
    (second : ∀ {σ n σ'}, Evals d σ n σ' → Evals d' σ n σ') (evals : Evals (.cond b c d) σ n σ') :
    Evals (.cond b c' d') σ n σ' := by
  cases evals with
  | condTrue value evals => exact .condTrue value (first evals)
  | condFalse value evals => exact .condFalse value (second evals)

/-- Nested in another way, a command has the same evaluations at the same cost. -/
lemma Reassoc.evals {c d} (h : Reassoc c d) {σ n σ'} : Evals c σ n σ' ↔ Evals d σ n σ' := by
  induction h generalizing σ n σ' with
  | refl => exact Iff.rfl
  | trans _ _ ih ih' => exact ih.trans ih'
  | assoc => exact evals_assoc
  | seq _ _ ihc ihd => simp only [evals_seq_iff, ihc, ihd]
  | cond _ _ ihc ihd =>
    exact ⟨evals_cond_congr ihc.1 ihd.1, evals_cond_congr ihc.2 ihd.2⟩
  | loop _ ih => exact ⟨Evals.loop_mono ih.1, Evals.loop_mono ih.2⟩

/-! ## Reading what was printed -/

/-- A command nested to the right is a command. -/
lemma WellSorted.renested {c : Node} (ws : c.WellSorted .command) : c.renested.WellSorted .command :=
  sequence_wellSorted ws.parts

/-- The text of a command is laid out with its tokens. -/
lemma WellSorted.written {c : Node} {text} (ws : c.WellSorted .command) (names : c.Writable)
    (rendered : c.render = .ok text) : Written .command c.tokens text.toList := by
  obtain ⟨_, eq, writes⟩ := ws.writes names
  cases eq.symm.trans rendered
  have written := writes [] [] .done nofun
  rwa [List.append_nil, List.append_nil] at written

/-- A command that is printed and parsed again compiles to the same program, or fails to compile in the
same way, and runs in the same way with any fuel and from any store. -/
theorem reparsed_meaning {c : Node} (ws : c.WellSorted .command) (names : c.Writable) :
    ∃ text c', c.render = .ok text ∧ parse text = .ok c' ∧
      (∀ entry prints declared,
        c'.compile entry prints declared = c.compile entry prints declared) ∧
      ∀ fuel σ, c'.run fuel σ = c.run fuel σ := by
  obtain ⟨text, rendered, _⟩ := ws.writes names
  have parsed := parse_of_written ws.leads.alone (ws.written names rendered) ws.renested
  have nested := reassoc_renested c
  refine ⟨text, c.renested, rendered, parsed, ?_, ?_⟩
  · intro entry prints declared
    exact (nested.compile entry prints declared).symm
  · intro fuel σ
    exact run_eq_of_evals ws.renested ws (fun n σ' => nested.evals.symm) fuel

/-- What comes back for `leftNested` is another tree with the same code and the same runs. -/
theorem leftNested_reparsed_meaning :
    leftNested.WellSorted .command ∧ leftNested.Writable ∧
    ∃ text c', leftNested.render = .ok text ∧ parse text = .ok c' ∧
      (∀ entry prints declared,
        c'.compile entry prints declared = leftNested.compile entry prints declared) ∧
      ∀ fuel σ, c'.run fuel σ = leftNested.run fuel σ := by
  have ws : leftNested.WellSorted .command := by
    repeat constructor
  have names : leftNested.Writable := ⟨by decide, by decide⟩
  exact ⟨ws, names, reparsed_meaning ws names⟩

/-! ## What the parser returns -/

/-- No sequence has a sequence as its first part. -/
def RightNested (n : Node) : Prop := ∀ c d, Within (.seq c d) n → ∀ c₁ c₂, c ≠ .seq c₁ c₂

/-- A tree whose children are nested to the right is so if it is no sequence of a sequence. -/
lemma rightNested_of_children {n : Node} (children : ∀ d ∈ n.children, d.RightNested)
    (own : ∀ c d c₁ c₂, n = .seq c d → c ≠ .seq c₁ c₂) : n.RightNested := by
  intro c d within c₁ c₂
  cases within with
  | self => exact own c d c₁ c₂ rfl
  | child mem within => exact children _ mem c d within c₁ c₂

/-- The children of a tree nested to the right are so. -/
lemma RightNested.child {n d : Node} (nested : n.RightNested) (mem : d ∈ n.children) : d.RightNested :=
  fun c e within => nested c e (.child mem within)

/-- Commands that are not sequences are their only part. -/
lemma parts_of_not_seq {c : Node} (single : ∀ c₁ c₂, c ≠ .seq c₁ c₂) : c.parts = [c.renested] := by
  cases c with
  | seq c d => exact absurd rfl (single c d)
  | _ => rfl

/-- A command that is nested to the right stays as it is. -/
lemma RightNested.renested_eq {c : Node} (nested : c.RightNested) : c.renested = c := by
  induction c with
  | seq c d ihc ihd =>
    have first : c.parts = [c] := by
      rw [parts_of_not_seq (nested c d .self), ihc (nested.child (by simp [children]))]
    have second : sequence d.parts = d := ihd (nested.child (by simp [children]))
    rw [renested, parts, first, List.singleton_append, sequence_cons parts_ne_nil, second]
  | cond b c d _ ihc ihd =>
    have first : sequence c.parts = c := ihc (nested.child (by simp [children]))
    have second : sequence d.parts = d := ihd (nested.child (by simp [children]))
    rw [renested, parts, first, second, sequence]
  | loop b c _ ihc =>
    have body : sequence c.parts = c := ihc (nested.child (by simp [children]))
    rw [renested, parts, body, sequence]
  | _ => rfl

end Node

namespace Surface

/-- No simple command is a sequence. -/
lemma Phrase.simple_ne_seq {ts e} (phrase : Phrase .simple ts e) (c d : Node) : e ≠ .seq c d := by
  rintro rfl
  cases phrase

/-- The trees of phrases are nested to the right. -/
lemma Phrase.rightNested {level ts e} (phrase : Phrase level ts e) : e.RightNested := by
  have node {e : Node} (children : ∀ d ∈ e.children, d.RightNested) (other : ∀ c d, e ≠ .seq c d) :
      e.RightNested :=
    Node.rightNested_of_children children fun c d _ _ eq => absurd eq (other c d)
  have pair {c d : Node} (first : c.RightNested) (second : d.RightNested) :
      ∀ e ∈ [c, d], e.RightNested :=
    List.forall_mem_cons.2 ⟨first, List.forall_mem_singleton.2 second⟩
  induction phrase with
  | int | negative | var | truth | falsity | skip => exact node nofun nofun
  | paren _ ih | factor _ ih | term _ ih | side _ ih | plain _ ih | conjunct _ ih | single _ ih =>
    exact ih
  | times _ _ ihl ihr | plus _ _ ihl ihr | minus _ _ ihl ihr | cmp _ _ ihl ihr | and _ _ ihl ihr =>
    exact node (pair ihl ihr) nofun
  | not _ ih | assign _ ih => exact node (List.forall_mem_singleton.2 ih) nofun
  | cond _ _ _ ihb ihc ihd =>
    exact node (List.forall_mem_cons.2 ⟨ihb, pair ihc ihd⟩) nofun
  | loop _ _ ihb ihc => exact node (pair ihb ihc) nofun
  | seq first _ ihc ihd =>
    refine Node.rightNested_of_children (pair ihc ihd) ?_
    rintro c d c₁ c₂ ⟨⟩
    exact first.simple_ne_seq c₁ c₂

end Surface

namespace Node

/-- What the parser returns is well sorted and nested to the right, its names can be written, and
printed and parsed again it comes back as it is. -/
theorem reparsed_stable {text : String} {c : Node} (parsed : parse text = .ok c) :
    c.WellSorted .command ∧
      (∀ d e, Within (.seq d e) c → ∀ d₁ d₂, d ≠ .seq d₁ d₂) ∧
      (∀ x ∈ c.assigned, isIdentifier x = true ∧ x ∉ ["SKIP", "IF", "WHILE"]) ∧
      (∀ x ∈ c.reads, isIdentifier x = true ∧ x ∉ ["true", "false"]) ∧
      ∃ printed, c.render = .ok printed ∧ parse printed = .ok c := by
  obtain ⟨ws, ts, phrase, names, _⟩ := parse_eq_ok_iff.1 parsed
  obtain ⟨printed, rendered, _⟩ := ws.writes names
  refine ⟨ws, phrase.rightNested, names.assigned, names.reads, printed, rendered, ?_⟩
  have program : Phrase .command c.tokens c := by
    have leads : Phrase .command c.tokens c.renested := ws.leads.alone
    rwa [phrase.rightNested.renested_eq] at leads
  exact parse_of_written program (ws.written names rendered) ws

/-- A program with needless brackets and a comment. -/
def bracketed : String := "IF (true) THEN X:=1;Y:=((2)) # two\n;SKIP ELSE SKIP FI"

/-- What is read for `bracketed`. -/
def unbracketed : Node :=
  .cond (.bool true) (.seq (.assign "X" (.num 1)) (.seq (.assign "Y" (.num 2)) .skip)) .skip

/-- The program is read without its brackets, and its printed form is read as the same tree. -/
theorem bracketed_reparsed_stable :
    parse bracketed = .ok unbracketed ∧ unbracketed.WellSorted .command ∧
    (∀ d e, Within (.seq d e) unbracketed → ∀ d₁ d₂, d ≠ .seq d₁ d₂) ∧
    ∃ printed, unbracketed.render = .ok printed ∧ parse printed = .ok unbracketed := by
  have parsed : parse bracketed = .ok unbracketed := rfl
  obtain ⟨ws, nested, _, _, again⟩ := reparsed_stable parsed
  exact ⟨parsed, ws, nested, again⟩

end Node
end ImpSSA
