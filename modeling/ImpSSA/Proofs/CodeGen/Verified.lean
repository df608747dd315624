import ImpSSA.Proofs.CodeGen.Compiled

/-!
# Compiled programs are well formed

`Elem.Sound` is what the verifier asks of a single element: instructions and terminators stand in
their places, branches go to the labels of the function and direct calls to functions of the program.
Generated code is sound with its own labels (`CommandCode.sound`), so with distinct labels and
identifiers a compiled program is well formed, unless it defines the external function itself
(`Compiled.wellFormed`). The verifier accepts it exactly then (`compiled_programs_verify`).
-/

namespace ImpSSA
open IR

/-- An element stands where it belongs, and refers to the labels of its function and to functions of
the program. -/
def IR.Elem.Sound (labels : List Key) (p : Program) : Elem → Prop
  | .instr _ (.instr x) => ∀ k, (Item.instr x).callee? = some k → p.knows k = true
  | .term _ (.term t) => ∀ l ∈ t.targets, l ∈ labels
  | .label _ => True
  | .instr .. | .term .. | .foreign => False

section
variable {labels : List Key} {p : Program}

/-- A block of sound elements is well formed. -/
lemma IR.Block.wellFormed_of_sound {b : Block} (sound : ∀ e ∈ b.elems, e.Sound labels p) :
    b.WellFormed labels p := by
  obtain ⟨label, code, i, last⟩ := b
  have instr : ∀ x ∈ code, (Elem.instr x.1 x.2).Sound labels p := by
    intro x mem
    apply sound
    exact List.mem_cons_of_mem _ (List.mem_append_left _ (List.mem_map.2 ⟨x, mem, rfl⟩))
  have term : (Elem.term i last).Sound labels p := by
    apply sound
    exact List.mem_cons_of_mem _ (List.mem_append_right _ List.mem_cons_self)
  refine ⟨?_, ?_, ?_, ?_⟩
  · cases last with
    | instr => exact term.elim
    | term => rfl
  · intro x mem
    obtain ⟨j, item⟩ := x
    cases item with
    | instr => rfl
    | term => exact (instr _ mem).elim
  · intro t eq
    cases eq
    exact term
  · intro x mem k eq
    obtain ⟨j, item⟩ := x
    cases item with
    | instr => exact instr _ mem k eq
    | term => cases eq

/-- An instruction that calls nothing by name is sound. -/
lemma instr_sound {i : InstrId} {x : Instr} (none : (Item.instr x).callee? = none) :
    (Elem.instr i (.instr x)).Sound labels p := by
  intro k eq
  rw [none] at eq
  cases eq

/-- An instruction that calls nothing is sound. -/
lemma single_sound {i : InstrId} {x : Instr} (none : (Item.instr x).callee? = none) :
    ∀ e ∈ instrs [(i, .instr x)], e.Sound labels p :=
  List.forall_mem_singleton.2 (instr_sound none)

/-- Sound code behind sound code. -/
lemma append_sound {code code' : List (InstrId × Item)} (h : ∀ e ∈ instrs code, e.Sound labels p)
    (h' : ∀ e ∈ instrs code', e.Sound labels p) : ∀ e ∈ instrs (code ++ code'), e.Sound labels p := by
  rw [instrs_append]
  exact List.forall_mem_append.2 ⟨h, h'⟩

variable {ctx : Context} {n n' v v' : Nat}

/-- The code of an arithmetic expression calls nothing. -/
lemma ArithCode.sound {e code w} (h : ArithCode ctx n e code w n') :
    ∀ e ∈ instrs code, e.Sound labels p := by
  induction h with
  | num => exact List.forall_mem_nil _
  | var => exact single_sound rfl
  | arith _ _ ihl ihr => exact append_sound ihl (append_sound ihr (single_sound rfl))

/-- The code of a boolean expression calls nothing. -/
lemma BoolCode.sound {b code w} (h : BoolCode ctx n b code w n') :
    ∀ e ∈ instrs code, e.Sound labels p := by
  induction h with
  | bool => exact List.forall_mem_nil _
  | cmp l r => exact append_sound l.sound (append_sound r.sound (single_sound rfl))
  | not _ ih => exact append_sound ih (single_sound rfl)
  | and _ _ ihl ihr => exact append_sound ihl (append_sound ihr (single_sound rfl))

/-- A jump to a label of the definition is sound. -/
lemma jump_sound {l : Nat} (mem : .anon l ∈ labels) : (jump v l).Sound labels p :=
  List.forall_mem_singleton.2 mem

/-- A fork to labels of the definition is sound. -/
lemma fork_sound {w : Value} {l l' : Nat} (mem : .anon l ∈ labels) (mem' : .anon l' ∈ labels) :
    (fork v w l l').Sound labels p :=
  List.forall_mem_cons.2 ⟨mem, List.forall_mem_singleton.2 mem'⟩

/-- The code of a command branches to its own labels only. -/
lemma CommandCode.sound {c es} (h : CommandCode ctx n v c es n' v')
    (own : ∀ l, .label l ∈ es → l ∈ labels) : ∀ e ∈ es, e.Sound labels p := by
  induction h with
  | skip => exact List.forall_mem_nil _
  | assign code =>
    simp only [List.forall_mem_append]
    exact ⟨code.sound, List.forall_mem_singleton.2 (instr_sound rfl)⟩
  | seq _ _ ihc ihd =>
    simp only [List.forall_mem_append]
    exact ⟨ihc fun l mem => own l (List.mem_append_left _ mem),
      ihd fun l mem => own l (List.mem_append_right _ mem)⟩
  | @cond n _ _ _ _ _ _ _ _ _ _ _ cs ds test _ _ ihc ihd =>
    -- the labels that are branched to are placed in the same code, so they are own labels
    have then_ : .anon n ∈ labels := own _ (by simp [mark])
    have else_ : .anon (n + 1 : Nat) ∈ labels := own _ (by simp [mark])
    have merge : .anon (n + 2 : Nat) ∈ labels := own _ (by simp [mark])
    simp only [List.forall_mem_append, List.forall_mem_cons]
    exact ⟨test.sound, fork_sound then_ else_, trivial, ihc fun l mem => own l (by simp [mem]),
      jump_sound merge, trivial, ihd fun l mem => own l (by simp [mem]), jump_sound merge, trivial,
      List.forall_mem_nil _⟩
  | @loop n _ _ _ _ _ _ _ _ cs test _ ih =>
    have head : .anon n ∈ labels := own _ (by simp [mark])
    have body : .anon (n + 1 : Nat) ∈ labels := own _ (by simp [mark])
    have exit : .anon (n + 2 : Nat) ∈ labels := own _ (by simp [mark])
    simp only [List.forall_mem_append, List.forall_mem_cons]
    exact ⟨jump_sound head, trivial, test.sound, fork_sound body exit, trivial,
      ih fun l mem => own l (by simp [mem]), jump_sound head, trivial, List.forall_mem_nil _⟩

/-- Storage calls nothing. -/
lemma storage_sound (xs : List String) : ∀ e ∈ instrs (storageCode n v xs), e.Sound labels p := by
  induction xs with
  | nil => exact List.forall_mem_nil _
  | cons x xs ih =>
    refine append_sound ih ?_
    exact List.forall_mem_cons.2 ⟨instr_sound rfl, single_sound rfl⟩

/-- Printing calls the printer, which has to be known if there is something to print. -/
lemma PrintsCode.sound {xs code} (h : PrintsCode ctx n v xs code n' v')
    (known : xs ≠ [] → p.knows printName = true) : ∀ e ∈ instrs code, e.Sound labels p := by
  induction h with
  | nil => exact List.forall_mem_nil _
  | cons _ _ ih =>
    have printer := known (List.cons_ne_nil _ _)
    refine List.forall_mem_cons.2 ⟨instr_sound rfl, List.forall_mem_cons.2 ⟨?_, ih fun _ => printer⟩⟩
    intro k eq
    cases eq
    exact printer

end

/-- Blocks of a stream that is numbered and sound with its own labels make a well-formed definition. -/
lemma wellFormed_of_stream {entry : Key} {blocks : List Block} {es : List Elem} {p : Program}
    {n v n' v'} (written : stream blocks = mark 0 :: es) (numbered : Numbered n v n' v' (mark 0 :: es))
    (sound : ∀ e ∈ es, e.Sound ((mark 0 :: es).filterMap Elem.label?) p) :
    (⟨entry, ⟨.void, []⟩, [], blocks⟩ : Definition).WellFormed p := by
  have labels : blocks.map (·.label) = (mark 0 :: es).filterMap Elem.label? := by
    rw [← written, filterMap_label?_stream]
  refine ⟨?_, rfl, ?_, ?_, ?_⟩
  · intro none
    cases none
    cases written
  · rw [Definition.labels, labels]
    exact numbered.labels
  · rw [← filterMap_id?_stream, written]
    exact numbered.ids
  · intro b mem
    refine Block.wellFormed_of_sound fun e inside => ?_
    rw [Definition.labels, labels]
    have streamed : e ∈ stream blocks := List.mem_flatMap.2 ⟨b, mem, inside⟩
    rw [written] at streamed
    rcases List.mem_cons.1 streamed with rfl | rest
    · trivial
    · exact sound e rest

/-- The stream of a function is sound in its program. -/
lemma functionCode_sound {c : Node} {ctx : Context} {d : Definition} {prints : Bool}
    {names : List String} {es code n v n' v'}
    (body : CommandCode ctx (1 + names.length) (1 + names.length) c es n v)
    (printing : PrintsCode ctx n v (if prints then names else []) code n' v') :
    ∀ e ∈ functionCode names es code v',
      e.Sound ((functionStream names es code v').filterMap Elem.label?) (programOf prints d) := by
  simp only [functionCode, List.forall_mem_append]
  refine ⟨storage_sound names, body.sound ?_, printing.sound ?_,
    List.forall_mem_singleton.2 (List.forall_mem_nil _)⟩
  · intro l mem
    exact List.mem_filterMap.2 ⟨.label l, by simp [functionStream, functionCode, mem], rfl⟩
  · intro some
    cases prints with
    | false => exact absurd rfl some
    | true => simp [programOf, Program.knows, Entity.name]

/-- The definition of a compiled program is well formed. -/
lemma wellFormed_of_code {c : Node} {ctx : Context} {entry : Key} {prints : Bool}
    {names : List String} {es code n v n' v' blocks}
    (body : CommandCode ctx (1 + names.length) (1 + names.length) c es n v)
    (printing : PrintsCode ctx n v (if prints then names else []) code n' v')
    (written : stream blocks = functionStream names es code v') :
    (⟨entry, ⟨.void, []⟩, [], blocks⟩ : Definition).WellFormed
      (programOf prints ⟨entry, ⟨.void, []⟩, [], blocks⟩) :=
  wellFormed_of_stream written (numbered_functionStream body printing)
    (functionCode_sound body printing)

/-- Compiled programs are well formed, unless they define the external function they call. -/
lemma Compiled.wellFormed {c : Node} {entry : Key} {prints : Bool} {names : List String}
    {p : Program} (h : Compiled c entry prints names p) (free : prints = true → entry ≠ printName) :
    p.WellFormed := by
  obtain ⟨body, printing, written⟩ := h
  refine ⟨?_, ?_⟩
  · cases prints with
    | false => simp [programOf]
    | true =>
      have ne := free rfl
      simp [programOf, Entity.name, ne.symm]
  · rw [definitions_programOf]
    exact List.forall_mem_singleton.2 (wellFormed_of_code body printing written)

/-- A program that declares the external function and defines it is refused. -/
lemma verify_programOf_printName {d : Definition} (same : d.name = printName) :
    (programOf true d).verify = .error (.duplicateEntity printName) := by
  have names : (programOf true d).entities.map Entity.name = [printName, printName] := by
    simp [programOf, Entity.name, same]
  rw [Program.verify, names]
  rfl

/-- Compiled programs pass the verifier, except where the values are printed and the compiled function
itself has the name of the external one. -/
theorem compiled_programs_verify {c : Node} (ws : c.WellSorted .command) (entry : Key) (prints : Bool)
    {declared : Option (List String)} (admits : c.Admits declared) :
    ∃ p, c.compile entry prints declared = .ok p ∧
      (¬ (prints = true ∧ entry = .named "print") → p.verify = .ok ()) ∧
      (prints = true ∧ entry = .named "print" →
        ∃ e, p.verify = .error e ∧ e.message = "@print: defined twice") := by
  obtain ⟨p, compiled, shape⟩ := exists_compiled ws entry prints admits
  refine ⟨p, compiled, ?_, ?_⟩
  · intro other
    apply Program.verify_ok_iff.2
    exact shape.wellFormed fun prints same => other ⟨prints, same⟩
  · rintro ⟨rfl, rfl⟩
    cases shape with
    | intro => exact ⟨_, verify_programOf_printName rfl, rfl⟩

/-- A conditional with a loop in it, over one variable. -/
def nestedControl : Node :=
  .cond (.cmp .le (.var "X") (.num 3)) (.loop (.bool false) .skip) (.assign "X" (.num 1))

/-- With an unused name declared and the values printed it verifies as `main`, but not as `print`. -/
theorem nestedControl_verifies :
    nestedControl.WellSorted .command ∧ nestedControl.Admits (some ["Y", "X"]) ∧
    (∃ p, nestedControl.compile (.named "main") true (some ["Y", "X"]) = .ok p ∧ p.verify = .ok ()) ∧
    ∃ p, nestedControl.compile (.named "print") true (some ["Y", "X"]) = .ok p ∧
      ∃ e, p.verify = .error e ∧ e.message = "@print: defined twice" := by
  have ws : nestedControl.WellSorted .command := by
    repeat constructor
  have admits : nestedControl.Admits (some ["Y", "X"]) := by
    intro x mem
    have names : nestedControl.vars = ["X"] := by decide +kernel
    rw [names, List.mem_singleton] at mem
    subst mem
    decide
  obtain ⟨p, compiled, passes, _⟩ := compiled_programs_verify ws (.named "main") true admits
  obtain ⟨q, compiled', _, fails⟩ := compiled_programs_verify ws (.named "print") true admits
  exact ⟨ws, admits, ⟨p, compiled, passes (by decide)⟩, ⟨q, compiled', fails (by decide)⟩⟩

end ImpSSA
