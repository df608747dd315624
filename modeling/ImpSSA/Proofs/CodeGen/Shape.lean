import ImpSSA.Proofs.IR.Stretches
import ImpSSA.Proofs.CodeGen.Scoping

/-!
# The shape of compiled code

Assembly loses nothing of a generated stream: every stretch between labels ends in its only terminator
(`assembly_lossless`). So what is emitted can be read off the blocks. Registers and labels are numbered
from one without gaps and so are the other items, each conditional and each loop has three blocks, all
blocks are reachable from the first, and only the last one returns (`compiled_shape`).

Labels are taken before the code that they stand in is emitted, so no count of the emitted elements
follows from their order; both counts and reachability go by the derivation of the code
(`CommandCode.length_labels`, `CommandCode.reaches`).
-/

namespace ImpSSA
open IR

/-- The number of conditionals and loops in a node. -/
def Node.branchings : Node → Nat
  | .cond b c d => 1 + b.branchings + c.branchings + d.branchings
  | .loop b c => 1 + b.branchings + c.branchings
  | .arith _ l r | .cmp _ l r | .and l r | .seq l r => l.branchings + r.branchings
  | .not b => b.branchings
  | .assign _ e => e.branchings
  | .num _ | .var _ | .bool _ | .skip | .foreign _ => 0

/-- The stream that is generated for a command is assembled without loss: its blocks, written out, are
the first label and the stream again, and every stretch of it ends in its only terminator. The blocks
are those of the compiled program. -/
theorem assembly_lossless {c : Node} (ws : c.WellSorted .command) (entry : Key) (prints : Bool)
    {declared : Option (List String)} (admits : c.Admits declared) :
    ∃ es g blocks, (c.generate prints (c.storage declared)).run .start = .ok es g ∧
      assemble entryLabel es = .ok blocks ∧
      c.compile entry prints declared =
        .ok (programOf prints ⟨entry, ⟨.void, []⟩, [], blocks⟩) ∧
      stream blocks = .label (.anon 0) :: es ∧
      ∀ s ∈ stretches (.anon 0) es, s.Closed := by
  obtain ⟨es, n, v, code, n', v', g, body, _, generated⟩ := exists_generated ws prints admits
  have shape : Regions (functionCode (c.storage declared) es code v') := regions_functionCode body v'
  obtain ⟨blocks, assembled, written⟩ := assemble_of_regions entryLabel shape
  exact ⟨_, g, blocks, generated, assembled, compile_eq generated assembled, written, shape.closed _⟩

/-- Nothing is lost of a loop that ends a branch, with an unused name declared and the values printed. -/
theorem nestedControl_lossless :
    ∃ es g blocks, (nestedControl.generate true ["X", "Y"]).run .start = .ok es g ∧
      assemble entryLabel es = .ok blocks ∧ stream blocks = .label (.anon 0) :: es ∧
      ∀ s ∈ stretches (.anon 0) es, s.Closed := by
  obtain ⟨ws, admits, names⟩ := nestedControl_ready
  obtain ⟨es, g, blocks, generated, assembled, _, written, closed⟩ :=
    assembly_lossless ws (.named "main") true admits
  rw [names] at generated
  exact ⟨es, g, blocks, generated, assembled, written, closed⟩

section
variable {ctx : Context} {n n' v v' : Nat}

/-! ## Blocks are counted by their labels -/

/-- Arithmetic expressions do not branch. -/
lemma ArithCode.branchings_eq {e code w} (h : ArithCode ctx n e code w n') : e.branchings = 0 := by
  induction h with
  | num | var => rfl
  | arith _ _ ihl ihr => rw [Node.branchings, ihl, ihr]

/-- Boolean expressions do not branch. -/
lemma BoolCode.branchings_eq {b code w} (h : BoolCode ctx n b code w n') : b.branchings = 0 := by
  induction h with
  | bool => rfl
  | cmp l r => rw [Node.branchings, l.branchings_eq, r.branchings_eq]
  | not _ ih => exact ih
  | and _ _ ihl ihr => rw [Node.branchings, ihl, ihr]

/-- The labels of a conditional: those of its branches, and of the block where they meet. -/
lemma filterMap_label?_cond {code : List (InstrId × Item)} {w : Value} {v₁ v₂ : Nat}
    {cs ds : List Elem} :
    (instrs code ++ fork v w n (n + 1) :: mark n ::
        (cs ++ jump v₁ (n + 2) :: mark (n + 1) ::
          (ds ++ [jump v₂ (n + 2), mark (n + 2)]))).filterMap Elem.label? =
      .anon n :: (cs.filterMap Elem.label? ++ .anon (n + 1) ::
        (ds.filterMap Elem.label? ++ [.anon (n + 2)])) := by
  simp [filterMap_label?_instrs, List.filterMap_cons]

/-- The labels of a loop: those of its test and its body, and of what follows it. -/
lemma filterMap_label?_loop {code : List (InstrId × Item)} {w : Value} {v₁ : Nat} {cs : List Elem} :
    (jump v n :: mark n :: (instrs code ++ fork (v + 1) w (n + 1) (n + 2) :: mark (n + 1) ::
        (cs ++ [jump v₁ n, mark (n + 2)]))).filterMap Elem.label? =
      .anon n :: .anon (n + 1) :: (cs.filterMap Elem.label? ++ [.anon (n + 2)]) := by
  simp [filterMap_label?_instrs, List.filterMap_cons]

/-- The code of a command has three labels for each conditional and each loop. -/
lemma CommandCode.length_labels {c es} (h : CommandCode ctx n v c es n' v') :
    (es.filterMap Elem.label?).length = 3 * c.branchings := by
  induction h with
  | skip => rfl
  | assign code => simp [filterMap_label?_instrs, Elem.label?, Node.branchings, code.branchings_eq]
  | seq _ _ ihc ihd =>
    rw [List.filterMap_append, List.length_append, ihc, ihd, Node.branchings]
    omega
  | cond test _ _ ihc ihd =>
    simp only [filterMap_label?_cond, List.length_append, List.length_cons, List.length_nil, ihc, ihd,
      Node.branchings, test.branchings_eq]
    omega
  | loop test _ ih =>
    simp only [filterMap_label?_loop, List.length_append, List.length_cons, List.length_nil, ih,
      Node.branchings, test.branchings_eq]
    omega

/-- The labels of a function are those of its command. -/
lemma filterMap_label?_functionCode (names : List String) (es : List Elem)
    (prints : List (InstrId × Item)) (w : Nat) :
    (functionCode names es prints w).filterMap Elem.label? = es.filterMap Elem.label? := by
  simp [functionCode, filterMap_label?_instrs, Elem.label?]

/-! ## Blocks are reachable -/

/-- What is carried along branches comes to all labels of the code of a command. -/
lemma CommandCode.reaches {R : Key → Prop} {l : Key} {c es} (h : CommandCode ctx n v c es n' v')
    (carried : Carried R l es) (start : R l) : ∀ k ∈ es.filterMap Elem.label?, R k := by
  induction h generalizing l with
  | skip => exact List.forall_mem_nil _
  | assign => simp [filterMap_label?_instrs, Elem.label?]
  | seq _ _ ihc ihd =>
    obtain ⟨first, second⟩ := carried_append.1 carried
    have labels := ihc first start
    rw [List.filterMap_append, List.forall_mem_append]
    exact ⟨labels, ihd second (of_lastLabel start labels)⟩
  | cond _ _ _ ihc ihd =>
    -- the test goes to both branches, and the end of the first one to the merge
    obtain ⟨forks, carried⟩ := carried_instrs.1 carried
    obtain ⟨yes, no⟩ := List.forall_mem_cons.1 (forks start)
    have no := List.forall_mem_singleton.1 no
    obtain ⟨first, jumps, carried⟩ := carried_append.1 carried
    obtain ⟨second, _⟩ := carried_append.1 carried
    have labels := ihc first yes
    have merge := List.forall_mem_singleton.1 (jumps (of_lastLabel yes labels))
    simp only [filterMap_label?_cond, List.forall_mem_cons, List.forall_mem_append]
    exact ⟨yes, labels, no, ihd second no, merge, List.forall_mem_nil _⟩
  | loop _ _ ih =>
    obtain ⟨jumps, carried⟩ := carried
    have head := List.forall_mem_singleton.1 (jumps start)
    obtain ⟨forks, carried⟩ := carried_instrs.1 carried
    obtain ⟨body, exit⟩ := List.forall_mem_cons.1 (forks head)
    have exit := List.forall_mem_singleton.1 exit
    obtain ⟨inner, _⟩ := carried_append.1 carried
    simp only [filterMap_label?_loop, List.forall_mem_cons, List.forall_mem_append]
    exact ⟨head, body, ih inner body, exit, List.forall_mem_nil _⟩

end

/-- In a well-formed definition whose blocks are those of a function all blocks are reachable. -/
lemma reachable_of_code {d : Definition} {p : Program} {c : Node} {ctx : Context}
    {names : List String} {es code n v n' v' w} (wf : d.WellFormed p)
    (body : CommandCode ctx n v c es n' v')
    (written : stream d.blocks = functionStream names es code w) :
    ∀ b ∈ d.blocks, ∃ done, Path d done b := by
  have unique {b b'} (mem : b ∈ d.blocks) (mem' : b' ∈ d.blocks) (same : b.label = b'.label) : b = b' :=
    List.inj_on_of_nodup_map wf.labels mem mem' same
  let R : Key → Prop := fun k => ∃ done b, Path d done b ∧ b.label = k
  have step : ∀ b ∈ d.blocks, R b.label → ∀ k ∈ b.targets, R k := by
    rintro b mem ⟨done, b', path, same⟩ k target
    obtain rfl := unique path.mem mem same
    obtain ⟨b'', mem'', rfl⟩ := List.mem_map.1 ((wf.blocks b' mem).mem_labels k target)
    exact ⟨_, b'', path.branch mem'' target, rfl⟩
  obtain ⟨first, rest, _, blocks, label, _⟩ := begins_with_storage body written
  have start : R (.anon 0) := ⟨[], first, .start (by rw [blocks]; rfl), label⟩
  have labels : ∀ k ∈ es.filterMap Elem.label?, R k := by
    have carried := carried_stream step (.anon 0)
    rw [written] at carried
    exact body.reaches (carried_append.1 (carried_instrs.1 carried)).1 start
  intro b mem
  have reached : R b.label := by
    have all := filterMap_label?_stream d.blocks
    rw [written, functionStream, List.filterMap_cons, label?_mark, filterMap_label?_functionCode] at all
    have among : b.label ∈ d.blocks.map (·.label) := List.mem_map.2 ⟨b, mem, rfl⟩
    rw [← all] at among
    rcases List.mem_cons.1 among with eq | among
    · rw [eq]
      exact start
    · exact labels _ among
  obtain ⟨done, b', path, same⟩ := reached
  obtain rfl := unique path.mem mem same
  exact ⟨done, path⟩

/-! ## Only the last block returns -/

/-- The code of a command does not return. -/
lemma CommandCode.not_ret {ctx : Context} {n v c es n' v'} (h : CommandCode ctx n v c es n' v')
    (i : InstrId) : .term i (.term .retVoid) ∉ es := by
  induction h with
  | skip => exact List.not_mem_nil
  | assign => simp [instrs]
  | seq _ _ ihc ihd => simp [ihc, ihd]
  | cond _ _ _ ihc ihd => simp [instrs, fork, jump, mark, ihc, ihd]
  | loop _ _ ih => simp [instrs, fork, jump, mark, ih]

/-- Of the blocks of a function only the last one returns. -/
lemma last_returns {c : Node} {ctx : Context} {names : List String} {es code n v n' v' w}
    {blocks : List Block} (body : CommandCode ctx n v c es n' v')
    (written : stream blocks = functionStream names es code w) :
    ∃ others last, blocks = others ++ [last] ∧ last.term.2 = .term .retVoid ∧
      ∀ b ∈ others, b.term.2 ≠ .term .retVoid := by
  have terms := filterMap_term?_stream blocks
  rw [written] at terms
  have ends : blocks.map (·.term) = es.filterMap Elem.term? ++ [(.void w, .term .retVoid)] := by
    rw [← terms]
    simp [functionStream, functionCode, mark, List.filterMap_cons, filterMap_term?_instrs, Elem.term?]
  obtain ⟨others, final, rfl, front, back⟩ := List.map_eq_append_iff.1 ends
  obtain ⟨last, rfl, term⟩ := List.map_eq_singleton_iff.1 back
  refine ⟨others, last, rfl, by rw [term], ?_⟩
  intro b mem returns
  have among : b.term ∈ es.filterMap Elem.term? := by
    rw [← front]
    exact List.mem_map.2 ⟨b, mem, rfl⟩
  obtain ⟨e, mem, eq⟩ := List.mem_filterMap.1 among
  cases e with
  | term i t =>
    rw [← Option.some.inj eq] at returns
    cases returns
    exact body.not_ret i mem
  | _ => cases eq

/-! ## Numbers -/

/-- What elements define are labels and results. -/
lemma filterMap_number?_perm (es : List Elem) :
    (es.filterMap Elem.number?).Perm
      (es.filterMap Elem.label? ++ (es.filterMap Elem.id?).filterMap InstrId.register?) := by
  induction es with
  | nil => exact .nil
  | cons e es ih =>
    cases e with
    | label k => exact ih.cons k
    | instr i x | term i x =>
      cases i with
      | result k => exact (ih.cons k).trans List.perm_middle.symm
      | void => exact ih
    | foreign => exact ih

/-- Labels and results of a compiled definition together are numbered from one, each once, and the
other items in program order too. There are three blocks for each conditional and each loop and one
more, all of them are reachable from the first one, and only the last one returns. -/
theorem compiled_shape {c : Node} (ws : c.WellSorted .command) (entry : Key) (prints : Bool)
    {declared : Option (List String)} (admits : c.Admits declared) :
    ∃ p d, c.compile entry prints declared = .ok p ∧ p.definitions = [d] ∧ d.name = entry ∧
      (∃ labels count, d.labels = .anon 0 :: labels ∧
        (labels ++ d.results).Perm ((List.Ico 1 (count + 1)).map fun k : Nat => .anon k)) ∧
      (∃ count, (d.blocks.flatMap Block.ids).filterMap InstrId.number? =
        (List.Ico 1 (count + 1)).map Int.ofNat) ∧
      d.blocks.length = 1 + 3 * c.branchings ∧
      (∀ b ∈ d.blocks, ∃ done, Path d done b) ∧
      ∃ others last, d.blocks = others ++ [last] ∧ last.term.2 = .term .retVoid ∧
        ∀ b ∈ others, b.term.2 ≠ .term .retVoid := by
  obtain ⟨p, compiled, shape⟩ := exists_compiled ws entry prints admits
  obtain ⟨body, printing, written⟩ := shape
  rename_i es n v code n' v' blocks
  have numbered := numbered_functionCode body printing
  have labels := filterMap_label?_stream blocks
  have ids := filterMap_id?_stream blocks
  rw [written, functionStream, List.filterMap_cons, label?_mark] at labels
  rw [written, functionStream, List.filterMap_cons, id?_mark] at ids
  refine ⟨_, _, compiled, definitions_programOf _ _, rfl, ⟨_, n' - 1, labels.symm, ?_⟩, ⟨v', ?_⟩, ?_,
    reachable_of_code (wellFormed_of_code body printing written) body written,
    last_returns body written⟩
  · have positive := numbered.le
    rw [Definition.results, ← ids, Nat.sub_add_cancel positive]
    exact (filterMap_number?_perm _).symm.trans numbered.numbers
  · rw [← ids]
    exact numbered.voids
  · have count := congrArg List.length labels
    rw [List.length_cons, filterMap_label?_functionCode, body.length_labels, List.length_map] at count
    exact count.symm.trans (Nat.add_comm _ _)

/-- A loop in a conditional makes seven blocks. -/
theorem nestedControl_shape :
    nestedControl.WellSorted .command ∧ nestedControl.Admits (some ["Y", "X"]) ∧
    ∃ p d, nestedControl.compile (.named "print") true (some ["Y", "X"]) = .ok p ∧
      p.definitions = [d] ∧ d.blocks.length = 7 ∧ ∀ b ∈ d.blocks, ∃ done, Path d done b := by
  obtain ⟨ws, admits, _⟩ := nestedControl_ready
  obtain ⟨p, d, compiled, defined, _, _, _, count, reachable, _⟩ :=
    compiled_shape ws (.named "print") true admits
  exact ⟨ws, admits, p, d, compiled, defined, count, reachable⟩

end ImpSSA
