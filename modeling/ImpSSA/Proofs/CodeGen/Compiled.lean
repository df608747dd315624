import ImpSSA.Proofs.CodeGen.Numbering
import ImpSSA.Proofs.Machine.Place

/-!
# Compiled programs

`Compiled c entry prints names p` describes the program of a well-sorted command: one definition
whose blocks, written out, are the first label and the code of storage, of the command, of the
printing and of the return. Assembly neither drops nor moves anything, since generated code has the
shape that it keeps (`CommandCode.regions`). `exists_compiled` says that compilation
succeeds with such a program when the declared names contain the variables of the command.
-/

namespace ImpSSA
open IR Machine

/-- The declared names, if there are any, contain the variables of the command. -/
def Node.Admits (c : Node) : Option (List String) → Prop
  | none => True
  | some declared => ∀ x ∈ c.vars, x ∈ declared

/-- The whole stream of a function. -/
def functionStream (names : List String) (es : List Elem) (prints : List (InstrId × Item))
    (v : Nat) : List Elem :=
  mark 0 :: functionCode names es prints v

/-- The program around the definition of a command. -/
def programOf (prints : Bool) (d : Definition) : Program :=
  ⟨if prints then [.declare ⟨printName, ⟨.void, [.i64]⟩⟩, .define d] else [.define d]⟩

/-- The program of a command. -/
inductive Compiled (c : Node) (entry : Key) (prints : Bool) (names : List String) : Program → Prop where
  | intro {es n v code n' v' blocks} :
    CommandCode (storageContext 1 names) (1 + names.length) (1 + names.length) c es n v →
    PrintsCode (storageContext 1 names) n v (if prints then names else []) code n' v' →
    stream blocks = functionStream names es code v' →
    Compiled c entry prints names (programOf prints ⟨entry, ⟨.void, []⟩, [], blocks⟩)

/-! ## Storage -/

/-- The register of a stored name is that of its place from the end. -/
lemma of_get?_storageContext {n : Nat} {x : String} {xs : List String} {ptr : Value}
    (found : (storageContext n xs).get? x = some ptr) :
    ∃ ys zs, xs = ys ++ x :: zs ∧ ptr = .register (.anon (n + zs.length : Nat)) := by
  induction xs with
  | nil => cases found
  | cons y xs ih =>
    rw [storageContext, Table.get?_insert] at found
    split at found
    · rename_i eq
      cases eq
      cases found
      exact ⟨[], xs, rfl, rfl⟩
    · obtain ⟨ys, zs, rfl, eq⟩ := ih found
      exact ⟨y :: ys, zs, rfl, eq⟩

/-- Every stored name has a pointer. -/
lemma storageContext_has (n : Nat) (names : List String) : (storageContext n names).Has names := by
  intro x mem
  induction names with
  | nil => cases mem
  | cons y names ih =>
    rw [storageContext, Table.get?_insert]
    split
    · exact ⟨_, rfl⟩
    · rename_i ne
      exact ih (List.mem_of_ne_of_mem ne mem)

/-- The names of a command are stored. -/
lemma Node.Admits.mem_storage {c : Node} {declared : Option (List String)} (h : c.Admits declared)
    {x : String} (mem : x ∈ c.names) : x ∈ c.storage declared := by
  have var : x ∈ c.vars := mem_vars.2 mem
  cases declared with
  | none => exact var
  | some declared => exact mem_sortNames.2 (h x var)

/-- No name is stored twice. -/
lemma Node.nodup_storage (c : Node) (declared : Option (List String)) :
    (c.storage declared).Nodup := by
  cases declared <;> exact nodup_sortNames _

/-- Where no names are declared, it is as if the variables were. -/
lemma Node.compile_none (c : Node) (entry : Key) (prints : Bool) :
    c.compile entry prints none = c.compile entry prints (some c.vars) := by
  have storage : c.storage (some c.vars) = c.storage none := sortNames_congr fun _ => mem_sortNames
  rw [Node.compile, Node.compile, storage]

/-! ## The stream of a function -/

section
variable {ctx : Context} {n n' v v' : Nat}

/-- The code of a command in front of a stream keeps its shape. -/
lemma CommandCode.regions {c es rest} (h : CommandCode ctx n v c es n' v') (shape : Regions rest) :
    Regions (es ++ rest) := by
  induction h generalizing rest with
  | skip => exact shape
  | assign =>
    rw [List.append_assoc]
    exact .instrs (.instr shape)
  | seq _ _ ihc ihd =>
    rw [List.append_assoc]
    exact ihc (ihd shape)
  | cond _ _ _ ihc ihd =>
    simp only [List.append_assoc, List.cons_append, List.nil_append]
    exact .instrs (.term (ihc (.term (ihd (.term shape)))))
  | loop _ _ ih =>
    simp only [List.append_assoc, List.cons_append, List.nil_append]
    exact .term (.instrs (.term (ih (.term shape))))

/-- Functions have the shape that assembly keeps. -/
lemma regions_functionCode {c es names} {prints : List (InstrId × Item)}
    (body : CommandCode ctx n v c es n' v') (w : Nat) : Regions (functionCode names es prints w) :=
  .instrs (body.regions (.instrs .last))

end

/-- Registers, labels and other items of a function are numbered from one without gaps. -/
lemma numbered_functionCode {c : Node} {ctx : Context} {names printed : List String}
    {es code n v n' v'}
    (body : CommandCode ctx (1 + names.length) (1 + names.length) c es n v)
    (printing : PrintsCode ctx n v printed code n' v') :
    Numbered 1 1 n' (v' + 1) (functionCode names es code v') := by
  have ret : Numbered n' v' n' (v' + 1) [.term (.void v') (.term .retVoid)] := .void rfl rfl
  exact (storage_numbered names).append <| body.numbered.append <| printing.numbered.append ret

/-- The first label has the number before. -/
lemma numbered_functionStream {c : Node} {ctx : Context} {names printed : List String}
    {es code n v n' v'}
    (body : CommandCode ctx (1 + names.length) (1 + names.length) c es n v)
    (printing : PrintsCode ctx n v printed code n' v') :
    Numbered 0 1 n' (v' + 1) (functionStream names es code v') := by
  have start : Numbered 0 1 1 1 [mark 0] :=
    ⟨by omega, by omega, by simp [anons_succ 0], by simp⟩
  exact start.append (numbered_functionCode body printing)

/-- The generator emits a function for a well-sorted command. -/
lemma exists_generated {c : Node} (ws : c.WellSorted .command) (prints : Bool)
    {declared : Option (List String)} (admits : c.Admits declared) :
    ∃ es n v code n' v' g,
      CommandCode (storageContext 1 (c.storage declared)) (1 + (c.storage declared).length)
        (1 + (c.storage declared).length) c es n v ∧
      PrintsCode (storageContext 1 (c.storage declared)) n v
        (if prints then c.storage declared else []) code n' v' ∧
      (c.generate prints (c.storage declared)).run .start =
        .ok (functionCode (c.storage declared) es code v') g := by
  have stored := storageContext_has 1 (c.storage declared)
  obtain ⟨es, n, v, body⟩ := CommandCode.exists_code ws
    (fun x mem => stored x (admits.mem_storage mem))
    (1 + (c.storage declared).length) (1 + (c.storage declared).length)
  have printed : (storageContext 1 (c.storage declared)).Has
      (if prints then c.storage declared else []) := by
    cases prints with
    | false => exact fun x mem => absurd mem List.not_mem_nil
    | true => exact stored
  obtain ⟨code, n', v', printing⟩ := PrintsCode.exists_code printed n v
  obtain ⟨g, generated⟩ := generate_eq body printing
  exact ⟨es, n, v, code, n', v', g, body, printing, generated⟩

/-- A stream that is generated and assembled makes a program. -/
lemma compile_eq {c : Node} {entry : Key} {prints : Bool} {declared : Option (List String)}
    {es : List Elem} {g : CodeGen} {blocks : List Block}
    (generated : (c.generate prints (c.storage declared)).run .start = .ok es g)
    (assembled : assemble entryLabel es = .ok blocks) :
    c.compile entry prints declared =
      .ok (programOf prints ⟨entry, ⟨.void, []⟩, [], blocks⟩) := by
  rw [Node.compile, generated]
  simp only [Node.define, assembled]
  rfl

/-- Compilation of a well-sorted command succeeds. -/
lemma exists_compiled {c : Node} (ws : c.WellSorted .command) (entry : Key) (prints : Bool)
    {declared : Option (List String)} (admits : c.Admits declared) :
    ∃ p, c.compile entry prints declared = .ok p ∧
      Compiled c entry prints (c.storage declared) p := by
  obtain ⟨es, n, v, code, n', v', g, body, printing, generated⟩ := exists_generated ws prints admits
  obtain ⟨blocks, assembled, written⟩ := assemble_of_regions entryLabel
    (regions_functionCode body v')
  exact ⟨_, compile_eq generated assembled, .intro body printing written⟩

/-- A compiled program has one definition. -/
lemma definitions_programOf (prints : Bool) (d : Definition) :
    (programOf prints d).definitions = [d] := by
  cases prints <;> rfl

/-- The definition of a compiled program is found by its name. -/
lemma definition?_programOf (prints : Bool) (d : Definition) :
    (programOf prints d).definition? d.name = some d := by
  rw [Program.definition?, definitions_programOf]
  simp

/-- The blocks of a compiled program are those of its stream. -/
lemma image_programOf {prints : Bool} {entry : Key} {blocks : List Block} {es n v n' v'}
    (numbered : Numbered n v n' v' es) (written : stream blocks = es) :
    Image (programOf prints ⟨entry, ⟨.void, []⟩, [], blocks⟩) entry es :=
  ⟨⟨_, definition?_programOf prints _, written⟩, numbered.labels, numbered.ids⟩

end ImpSSA
