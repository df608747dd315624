import ImpSSA.Proofs.IR.Legible
import ImpSSA.Proofs.Assembly.Mirror

/-!
# The export of compiled programs

Compiled code is typed: cells are pointers to words, and the registers of expressions hold words or truth
values, as the items that define them say (`CommandCode.mirrored`). In the order in which it is written it
defines registers before it refers to them, since storage comes first and temporaries stay in their block
(`functionStream_ordered`). Numbers make names that differ. So compiled programs are exported one to one
(`compiled_exports`).
-/

namespace ImpSSA
open IR Assembly

/-! ## Types -/

/-- The type in the assembly; `void` where there is none. -/
def Assembly.exported (ty : IR.Ty) : Assembly.Ty :=
  match convert ty with
  | .ok t => t
  | .error _ => .void

/-- The type of the result of an item. -/
def IR.Item.type : Item → Assembly.Ty
  | .instr (.binop _ ty _ _) | .instr (.load ty _) => exported ty
  | .instr (.icmp ..) => .int 1
  | .instr (.alloca ty) => .ptr (exported ty)
  | .instr (.store ..) | .instr (.call ..) | .instr .foreign | .term _ => .void

/-- The register that an element defines has the type of its item. -/
def Assembly.Types.Fits (Γ : Types) : Elem → Prop
  | .instr (.result k) x | .term (.result k) x => Γ.register k = x.type
  | .instr (.void _) _ | .term (.void _) _ | .label _ | .foreign => True

/-- Elements that do not define a register fit another type of it. -/
lemma Assembly.Types.Fits.update {register : Key → Assembly.Ty}
    {function : Key → Option (Assembly.Ty × List Assembly.Ty)} {e : Elem} {k : Key}
    (h : Types.Fits ⟨register, function⟩ e) (ne : e.id? ≠ some (.result k)) (t : Assembly.Ty) :
    Types.Fits ⟨Function.update register k t, function⟩ e := by
  cases e with
  | label | foreign => trivial
  | instr i x | term i x =>
    cases i with
    | void => trivial
    | result j =>
      have other : j ≠ k := fun eq => ne (by rw [eq]; rfl)
      exact (Function.update_of_ne other t register).trans h

/-- Where identifiers are distinct, every register has one type. -/
lemma exists_types (function : Key → Option (Assembly.Ty × List Assembly.Ty)) {es : List Elem}
    (distinct : (es.filterMap Elem.id?).Nodup) :
    ∃ register : Key → Assembly.Ty, ∀ e ∈ es, Types.Fits ⟨register, function⟩ e := by
  induction es with
  | nil => exact ⟨fun _ => .void, List.forall_mem_nil _⟩
  | cons e es ih =>
    cases e with
    | label | foreign =>
      obtain ⟨register, fits⟩ := ih distinct
      exact ⟨register, List.forall_mem_cons.2 ⟨trivial, fits⟩⟩
    | instr i x | term i x =>
      obtain ⟨new, distinct⟩ : i ∉ es.filterMap Elem.id? ∧ (es.filterMap Elem.id?).Nodup :=
        List.nodup_cons.1 distinct
      obtain ⟨register, fits⟩ := ih distinct
      cases i with
      | void => exact ⟨register, List.forall_mem_cons.2 ⟨trivial, fits⟩⟩
      | result k =>
        -- no other element defines the register, so its type is still free to choose
        refine ⟨Function.update register k x.type, List.forall_mem_cons.2 ⟨Function.update_self .., ?_⟩⟩
        intro e mem
        exact (fits e mem).update (fun eq => new (List.mem_filterMap.2 ⟨e, mem, eq⟩)) x.type

/-- The item of an element has an instruction. -/
def Assembly.HasMirror (Γ : Types) : Elem → Prop
  | .instr i x | .term i x => ∃ y, Mirrors Γ (i, x) y
  | .label _ | .foreign => True

/-- The code has instructions, and its operand is one of the type. -/
structure MirroredValue (Γ : Types) (code : List (InstrId × Item)) (t : Assembly.Ty) (w : Value) :
    Prop where
  items : ∀ e ∈ instrs code, HasMirror Γ e
  value : ∃ x, MirrorsValue Γ t w x

/-- The pointers of a context are those of cells of words. -/
def Context.Cells (ctx : Context) (Γ : Types) : Prop :=
  ∀ x p, ctx.get? x = some p → ∃ y, MirrorsValue Γ (.ptr (.int 64)) p y

section
variable {Γ : Types} {ctx : Context} {n n' v v' : Nat}

/-- An operator behind the code of its operands. -/
lemma MirroredValue.operator {cl cr : List (InstrId × Item)} {t u : Assembly.Ty} {l r : Value} {k : Key}
    {x : Item} {a : Operand → Operand → Action} (left : MirroredValue Γ cl t l)
    (right : MirroredValue Γ cr t r)
    (item : ∀ y z, MirrorsValue Γ t l y → MirrorsValue Γ t r z → MirrorsItem Γ x u (a y z))
    (value : u ≠ .void) (type : Γ.register k = u) :
    MirroredValue Γ (cl ++ (cr ++ [(.result k, x)])) u (.register k) := by
  obtain ⟨y, valuel⟩ := left.value
  obtain ⟨z, valuer⟩ := right.value
  refine ⟨?_, _, .register type⟩
  simp only [instrs_append, List.forall_mem_append]
  exact ⟨left.items, right.items,
    List.forall_mem_singleton.2 ⟨_, .result (item y z valuel valuer) value type⟩⟩

/-- The types of the parts of an operator's code. -/
lemma fits_operator {cl cr : List (InstrId × Item)} {x : InstrId × Item} :
    (∀ e ∈ instrs (cl ++ (cr ++ [x])), Γ.Fits e) ↔
      (∀ e ∈ instrs cl, Γ.Fits e) ∧ (∀ e ∈ instrs cr, Γ.Fits e) ∧ Γ.Fits (.instr x.1 x.2) := by
  simp only [instrs_append, List.forall_mem_append]
  exact and_congr_right' (and_congr_right' List.forall_mem_singleton)

/-- The load of a variable is a word. -/
lemma load_mirrored {x : String} {p : Value} {k : Key} (cells : ctx.Cells Γ) (found : ctx.get? x = some p)
    (fits : Γ.Fits (.instr (.result k) (.instr (.load .i64 p)))) :
    MirroredValue Γ [(.result k, .instr (.load .i64 p))] (.int 64) (.register k) := by
  obtain ⟨y, pointer⟩ := cells x p found
  refine ⟨List.forall_mem_singleton.2 ⟨_, .result (.load rfl pointer) (by simp) fits⟩, ?_⟩
  exact ⟨_, .register fits⟩

/-- The code of an arithmetic expression has mirrors, and its operand is a word. -/
lemma ArithCode.mirrored {e code w} (h : ArithCode ctx n e code w n') (cells : ctx.Cells Γ)
    (fits : ∀ e ∈ instrs code, Γ.Fits e) : MirroredValue Γ code (.int 64) w := by
  induction h with
  | num => exact ⟨List.forall_mem_nil _, _, .int⟩
  | var found => exact load_mirrored cells found (List.forall_mem_singleton.1 fits)
  | @arith _ _ _ op _ _ _ _ _ _ _ _ ihl ihr =>
    obtain ⟨left, right, type⟩ := fits_operator.1 fits
    exact (ihl left).operator (ihr right) (fun _ _ => .binop op.lower_mem rfl) (by simp) type

/-- The code of a boolean expression has mirrors, and its operand is a truth value. -/
lemma BoolCode.mirrored {b code w} (h : BoolCode ctx n b code w n') (cells : ctx.Cells Γ)
    (fits : ∀ e ∈ instrs code, Γ.Fits e) : MirroredValue Γ code (.int 1) w := by
  induction h with
  | bool => exact ⟨List.forall_mem_nil _, _, .bool⟩
  | @cmp _ _ _ op _ _ _ _ _ _ l r =>
    obtain ⟨left, right, type⟩ := fits_operator.1 fits
    exact (l.mirrored cells left).operator (r.mirrored cells right)
      (fun _ _ => .icmp op.lower_mem rfl) (by simp) type
  | not _ ih =>
    -- the constant is an operand without code
    have constant : MirroredValue Γ [] (.int 1) (.bool true) := ⟨List.forall_mem_nil _, _, .bool⟩
    obtain ⟨operand, _, type⟩ := (@fits_operator Γ _ [] _).1 fits
    exact (ih operand).operator constant (fun _ _ => .binop (by decide) rfl) (by simp) type
  | and _ _ ihl ihr =>
    obtain ⟨left, right, type⟩ := fits_operator.1 fits
    exact (ihl left).operator (ihr right) (fun _ _ => .binop (by decide) rfl) (by simp) type

/-- A jump has a mirror. -/
lemma jump_mirrored {l : Nat} : HasMirror Γ (jump v l) := ⟨⟨"", .void, _⟩, .void .br⟩

/-- A fork on a truth value has a mirror. -/
lemma MirroredValue.fork {code : List (InstrId × Item)} {w : Value} {l l' : Nat}
    (h : MirroredValue Γ code (.int 1) w) : HasMirror Γ (fork v w l l') := by
  obtain ⟨x, value⟩ := h.value
  exact ⟨⟨"", .void, _⟩, .void (.condBr value)⟩

/-- The code of a command has instructions. -/
lemma CommandCode.mirrored {c es} (h : CommandCode ctx n v c es n' v') (cells : ctx.Cells Γ)
    (fits : ∀ e ∈ es, Γ.Fits e) : ∀ e ∈ es, HasMirror Γ e := by
  induction h with
  | skip => exact List.forall_mem_nil _
  | assign code found =>
    obtain ⟨before, _⟩ := List.forall_mem_append.1 fits
    have arith := code.mirrored cells before
    obtain ⟨x, value⟩ := arith.value
    obtain ⟨y, pointer⟩ := cells _ _ found
    exact List.forall_mem_append.2
      ⟨arith.items, List.forall_mem_singleton.2 ⟨⟨"", .void, _⟩, .void (.store rfl value pointer)⟩⟩
  | seq _ _ ihc ihd =>
    obtain ⟨first, second⟩ := List.forall_mem_append.1 fits
    exact List.forall_mem_append.2 ⟨ihc first, ihd second⟩
  | cond test _ _ ihc ihd =>
    simp only [List.forall_mem_append, List.forall_mem_cons] at fits ⊢
    obtain ⟨code, _, _, first, _, _, second, _⟩ := fits
    have bool := test.mirrored cells code
    exact ⟨bool.items, bool.fork, trivial, ihc first, jump_mirrored, trivial, ihd second, jump_mirrored,
      trivial, List.forall_mem_nil _⟩
  | loop test _ ih =>
    simp only [List.forall_mem_append, List.forall_mem_cons] at fits ⊢
    obtain ⟨_, _, code, _, _, inside, _⟩ := fits
    have bool := test.mirrored cells code
    exact ⟨jump_mirrored, trivial, bool.items, bool.fork, trivial, ih inside, jump_mirrored, trivial,
      List.forall_mem_nil _⟩

/-- Printing has mirrors if the printer takes a word. -/
lemma PrintsCode.mirrored {xs code} (h : PrintsCode ctx n v xs code n' v') (cells : ctx.Cells Γ)
    (printer : xs ≠ [] → Γ.function printName = some (.void, [.int 64]))
    (fits : ∀ e ∈ instrs code, Γ.Fits e) : ∀ e ∈ instrs code, HasMirror Γ e := by
  induction h with
  | nil => exact List.forall_mem_nil _
  | cons found _ ih =>
    obtain ⟨type, others⟩ := List.forall_mem_cons.1 fits
    obtain ⟨_, rest⟩ := List.forall_mem_cons.1 others
    have known := printer (List.cons_ne_nil _ _)
    have load := load_mirrored cells found type
    obtain ⟨x, value⟩ := load.value
    refine List.forall_mem_cons.2 ⟨List.forall_mem_singleton.1 load.items,
      List.forall_mem_cons.2 ⟨?_, ih (fun _ => known) rest⟩⟩
    exact ⟨⟨"", .void, _⟩, .void (.call known (.cons rfl value .nil))⟩

/-- Storage has mirrors. -/
lemma storage_mirrored (xs : List String) (fits : ∀ e ∈ instrs (storageCode n v xs), Γ.Fits e) :
    ∀ e ∈ instrs (storageCode n v xs), HasMirror Γ e := by
  induction xs with
  | nil => exact List.forall_mem_nil _
  | cons x xs ih =>
    simp only [storageCode, instrs_append, List.forall_mem_append] at fits ⊢
    obtain ⟨before, here⟩ := fits
    obtain ⟨type, _⟩ := List.forall_mem_cons.1 here
    refine ⟨ih before, List.forall_mem_cons.2 ⟨⟨_, .result (.alloca rfl) (by simp) type⟩, ?_⟩⟩
    exact List.forall_mem_singleton.2 ⟨⟨"", .void, _⟩, .void (.store rfl .int (.register type))⟩

/-- The pointers of stored names have the type of pointers to words. -/
lemma storageContext_cells (xs : List String) (fits : ∀ e ∈ instrs (storageCode n v xs), Γ.Fits e) :
    (storageContext n xs).Cells Γ := by
  intro x p found
  induction xs with
  | nil => cases found
  | cons y xs ih =>
    simp only [storageCode, instrs_append, List.forall_mem_append] at fits
    obtain ⟨before, here⟩ := fits
    obtain ⟨type, _⟩ := List.forall_mem_cons.1 here
    rw [storageContext, Table.get?_insert] at found
    split at found
    · cases found
      exact ⟨_, .register type⟩
    · exact ih before found

end

/-- Functions consist of items that have instructions. -/
lemma functionStream_mirrored {Γ : Types} {c : Node} {names printed : List String} {es code n v n' v'}
    (body : CommandCode (storageContext 1 names) (1 + names.length) (1 + names.length) c es n v)
    (printing : PrintsCode (storageContext 1 names) n v printed code n' v')
    (printer : printed ≠ [] → Γ.function printName = some (.void, [.int 64]))
    (fits : ∀ e ∈ functionStream names es code v', Γ.Fits e) :
    ∀ e ∈ functionStream names es code v', HasMirror Γ e := by
  simp only [functionStream, functionCode, List.forall_mem_cons, List.forall_mem_append] at fits ⊢
  obtain ⟨_, storage, command, prints, _⟩ := fits
  have cells := storageContext_cells names storage
  exact ⟨trivial, storage_mirrored names storage, body.mirrored cells command,
    printing.mirrored cells printer prints, ⟨⟨"", .void, _⟩, .void .retVoid⟩, List.forall_mem_nil _⟩

/-! ## Order -/

section
variable {known : Key → Prop}

/-- Code whose registers are cells or temporaries is ordered behind its cells. -/
lemma IR.Scoped.ordered {cells : List Key} {code : List (InstrId × Item)} {es : List Elem}
    (h : Scoped cells code es) (known_cells : ∀ k ∈ cells, known k)
    (known_code : ∀ k ∈ resultsOf Item.computes code, known k) : Ordered known es := by
  induction es generalizing code known with
  | nil => trivial
  | cons e es ih =>
    have still : ∀ k ∈ cells, known k ∨ e.result? = some k := fun k mem => .inl (known_cells k mem)
    cases e with
    | label => exact ⟨List.forall_mem_nil _, ih h still (List.forall_mem_nil _)⟩
    | foreign => exact ⟨List.forall_mem_nil _, ih h still fun k mem => .inl (known_code k mem)⟩
    | instr i x | term i x =>
      refine ⟨fun k mem => ?_, ih h.2 still fun k mem => ?_⟩
      · rcases h.1 k mem with ⟨cell, _⟩ | temporary
        · exact known_cells k cell
        · exact known_code k temporary
      · rw [resultsOf_append] at mem
        rcases List.mem_append.1 mem with before | here
        · exact .inl (known_code k before)
        · obtain ⟨y, memy, _⟩ := mem_resultsOf.1 here
          cases List.mem_singleton.1 memy
          exact .inr rfl

/-- Storage refers only to the register that it has just defined. -/
lemma storage_ordered (n v : Nat) (xs : List String) : Ordered known (instrs (storageCode n v xs)) := by
  induction xs with
  | nil => trivial
  | cons x xs ih =>
    rw [storageCode, instrs_append]
    refine ih.append ⟨List.forall_mem_nil _, ?_, trivial⟩
    exact List.forall_mem_singleton.2 (.inr rfl)

end

/-- Functions define their registers before they refer to them. -/
lemma functionStream_ordered {c : Node} {names printed : List String} {es code n v n' v'}
    (body : CommandCode (storageContext 1 names) (1 + names.length) (1 + names.length) c es n v)
    (printing : PrintsCode (storageContext 1 names) n v printed code n' v') :
    Ordered (fun _ => False) (functionStream names es code v') := by
  refine ⟨List.forall_mem_nil _, (storage_ordered 1 1 names).append ?_⟩
  refine (body_inScope (storageContext_points 1 names) body printing).ordered (fun k mem => .inr ?_)
    (List.forall_mem_nil _)
  -- the cells are the results of storage
  rw [← resultsOf_storageCode 1 1] at mem
  obtain ⟨x, mem, _⟩ := mem_resultsOf.1 mem
  exact List.mem_filterMap.2 ⟨.instr (.result k) x, List.mem_map.2 ⟨_, mem, rfl⟩, rfl⟩

/-! ## Names -/

/-- A result is numbered. -/
lemma number?_of_result? (e : Elem) (k : Key) (h : e.result? = some k) : e.number? = some k := by
  cases e with
  | instr | term => exact h
  | _ => cases h

/-- Numbered keys have different names. -/
lemma Numbered.nodup_names {n v n' v' : Nat} {es : List Elem} (h : Numbered n v n' v' es)
    {key? : Elem → Option Key} {name : Key → String} (numbers : ∀ e k, key? e = some k → e.number? = some k)
    (inj : ∀ i j : Int, name (.anon i) = name (.anon j) → i = j) :
    ((es.filterMap key?).map name).Nodup := by
  have all : ((anons n n').map name).Nodup := by
    rw [anons, List.map_map]
    exact List.Nodup.map (fun i j eq => Int.ofNat.inj (inj i j eq)) (List.Ico.nodup n n')
  exact ((h.numbers.map name).nodup_iff.2 all).sublist ((filterMap_sublist numbers es).map name)

/-- Numbered registers with the same name are the same. -/
lemma registerName_anon_inj (i j : Int) (eq : registerName (.anon i) = registerName (.anon j)) : i = j :=
  numeral_inj.1 ((String.append_right_inj "v").1 eq)

/-- Numbered blocks with the same name are the same. -/
lemma blockName_anon_inj (i j : Int) (eq : blockName (.anon i) = blockName (.anon j)) : i = j :=
  numeral_inj.1 ((String.append_right_inj "b").1 eq)

/-- An element that stands where it belongs and has an instruction. -/
lemma mirrored_of_sound {Γ : Types} {labels : List Key} {p : Program} {e : Elem} (sound : e.Sound labels p)
    (h : HasMirror Γ e) : Mirrored Γ labels e := by
  cases e with
  | label => trivial
  | foreign => exact sound.elim
  | instr i x =>
    cases x with
    | instr => exact h
    | term => exact sound.elim
  | term i x =>
    cases x with
    | instr => exact sound.elim
    | term => exact ⟨h, sound⟩

/-- The types of the functions that compiled code calls. -/
def callees (prints : Bool) (k : Key) : Option (Assembly.Ty × List Assembly.Ty) :=
  if prints = true ∧ k = printName then some (.void, [.int 64]) else none

/-- The definition of a compiled program can be exported. -/
lemma exists_exportable {c : Node} {entry : Key} {prints : Bool} {names : List String} {es code n v n' v'}
    {blocks : List IR.Block}
    (body : CommandCode (storageContext 1 names) (1 + names.length) (1 + names.length) c es n v)
    (printing : PrintsCode (storageContext 1 names) n v (if prints then names else []) code n' v')
    (written : stream blocks = functionStream names es code v') :
    ∃ register, Exportable ⟨register, callees prints⟩ ⟨entry, ⟨.void, []⟩, [], blocks⟩ := by
  have numbered := numbered_functionStream body printing
  obtain ⟨register, fits⟩ := exists_types (callees prints) numbered.ids
  have labels : blocks.map (·.label) = (functionStream names es code v').filterMap Elem.label? := by
    rw [← written, filterMap_label?_stream]
  refine ⟨register, rfl, ?_, ?_, ?_, ?_⟩
  · intro e mem
    rw [written] at mem
    have sound : e.Sound ((functionStream names es code v').filterMap Elem.label?)
        (programOf prints ⟨entry, ⟨.void, []⟩, [], blocks⟩) := by
      rcases List.mem_cons.1 mem with rfl | inside
      · trivial
      · exact functionCode_sound body printing e inside
    rw [labels]
    refine mirrored_of_sound sound (functionStream_mirrored body printing ?_ fits e mem)
    intro some
    cases prints with
    | false => exact absurd rfl some
    | true => rfl
  · rw [written]
    exact functionStream_ordered body printing
  · rw [written]
    exact numbered.nodup_names number?_of_result? registerName_anon_inj
  · have distinct := numbered.nodup_names number?_of_label? blockName_anon_inj
    rw [← labels, List.map_map] at distinct
    exact distinct

/-! ## Modules -/

/-- The function that the values are handed to. -/
def printer : Function := ⟨"print", .void, [(.int 64, ".1")], []⟩

/-- A text without digits and signs is that of one key only. -/
lemma IR.Key.text_ne {k : Key} {s : String} (word : s.toList.all fun c => !c.isDigit && c != '-')
    (ne : k ≠ .named s) : k.text ≠ s := by
  intro eq
  cases k with
  | anon n =>
    obtain ⟨c, mem⟩ := exists_mem_numeral n
    have other := List.all_eq_true.1 word c (eq ▸ mem)
    rcases mem_numeral mem with digit | rfl
    · simp [digit] at other
    · simp at other
  | named t => exact ne (congrArg Key.named eq)

/-- The header of the external function. -/
def printerHeader : Header :=
  ⟨"print", .void, [(.int 64, ".1")], ((Scope.start.register "").2.register "").2⟩

/-- The header of a compiled function. -/
def entryHeader (entry : Key) : Header := ⟨entry.text, .void, [], (Scope.start.register "").2⟩

/-- The header of the printer. -/
lemma header_printer : header (.declare ⟨printName, ⟨.void, [.i64]⟩⟩) = .ok printerHeader := rfl

/-- The header of a compiled function. -/
lemma header_entry (entry : Key) (blocks : List IR.Block) :
    header (.define ⟨entry, ⟨.void, []⟩, [], blocks⟩) = .ok (entryHeader entry) := rfl

/-- A compiled function has no parameters whose names could be in the way. -/
lemma entryHeader_apart (entry : Key) : (entryHeader entry).Apart := by
  have used : (entryHeader entry).scope.used = [numbered "" 1, ""] := rfl
  refine ⟨by simp [used], fun k taken => ?_, fun l taken => ?_⟩
  · rcases List.mem_pair.1 taken with eq | eq
    · exact registerName_ne_numbered k 1 eq
    · simp [registerName] at eq
  · rcases List.mem_pair.1 taken with eq | eq
    · exact blockName_ne_numbered l 1 eq
    · simp [blockName] at eq

/-- The external function is known where the compiled one has another name. -/
lemma callees_known {entry k : Key} {f : Operand} {ret : Assembly.Ty} {ts : List Assembly.Ty}
    (other : entry ≠ printName) (found : callees true k = some (ret, ts)) :
    (Table.ofList [(printName, printerHeader.operand), (entry, f)]).get? k =
      some (.function k.text ret ts) := by
  rw [callees] at found
  split at found
  · rename_i eq
    obtain ⟨_, rfl⟩ := eq
    cases found
    rw [Table.ofList, List.foldl_cons, List.foldl_cons, List.foldl_nil, Table.get?_insert,
      if_neg other.symm, Table.get?_insert, if_pos rfl]
    rfl
  · cases found

/-- A header whose name is new, and the headers after it. -/
lemma headers_cons {used : List String} {e : Entity} {es : List Entity} {h : Header} {hs : List Header}
    (made : header e = .ok h) (new : h.name ∉ used) (rest : headers (h.name :: used) es = .ok hs) :
    headers used (e :: es) = .ok (h :: hs) := by
  have fresh : used.contains h.name = false := by simpa using new
  simp only [headers, made, bind, Except.bind, fresh, rest]
  rfl

/-- A module has a function for each entity. -/
lemma export_eq {p : Program} {hs : List Header} {fs : List Function}
    (made : headers [""] p.entities = .ok hs)
    (built : (p.entities.zip hs).mapM (fun x => exportEntity
      (Table.ofList ((p.entities.map Entity.name).zip (hs.map Header.operand))) x.1 x.2) = .ok fs)
    (name : String) : p.export name = .ok ⟨name, fs⟩ :=
  bind_eq_ok.2 ⟨hs, made, bind_eq_ok.2 ⟨fs, built, rfl⟩⟩

/-- A program of a definition that can be exported is exported. -/
lemma export_programOf {Γ : Types} {entry : Key} {prints : Bool} {blocks : List IR.Block}
    (exportable : Exportable Γ ⟨entry, ⟨.void, []⟩, [], blocks⟩) (functions : Γ.function = callees prints)
    (named : entry ≠ .named "") (other : prints = true → entry ≠ printName) (name : String) :
    ∃ blocks', List.Forall₂ (Block.Mirrors Γ) blocks blocks' ∧
      (programOf prints ⟨entry, ⟨.void, []⟩, [], blocks⟩).export name =
        .ok ⟨name, (if prints then [printer] else []) ++ [⟨entry.text, .void, [], blocks'⟩]⟩ := by
  have nonempty : entry.text ≠ "" := Key.text_ne (by decide) named
  cases prints with
  | false =>
    have made : headers [""] [.define ⟨entry, ⟨.void, []⟩, [], blocks⟩] = .ok [entryHeader entry] :=
      headers_cons (header_entry entry blocks) (by simpa [entryHeader] using nonempty) rfl
    obtain ⟨blocks', defined, mirrors⟩ := @Exportable.defineFunction Γ
      (Table.ofList [(entry, (entryHeader entry).operand)]) (entryHeader entry) _ exportable
      (entryHeader_apart entry) (by simp [functions, callees])
    refine ⟨blocks', mirrors, export_eq made ?_ name⟩
    exact mapM_cons_ok defined rfl
  | true =>
    have apart : entry.text ≠ "print" := Key.text_ne (by decide) (other rfl)
    have made : headers [""] [.declare ⟨printName, ⟨.void, [.i64]⟩⟩,
        .define ⟨entry, ⟨.void, []⟩, [], blocks⟩] = .ok [printerHeader, entryHeader entry] :=
      headers_cons header_printer (by decide) <|
        headers_cons (header_entry entry blocks) (by simp [entryHeader, printerHeader, nonempty, apart]) rfl
    obtain ⟨blocks', defined, mirrors⟩ := @Exportable.defineFunction Γ
      (Table.ofList [(printName, printerHeader.operand), (entry, (entryHeader entry).operand)])
      (entryHeader entry) _ exportable (entryHeader_apart entry) (by
        rw [functions]
        exact fun _ _ _ => callees_known (other rfl))
    refine ⟨blocks', mirrors, export_eq made ?_ name⟩
    exact mapM_cons_ok rfl (mapM_cons_ok defined rfl)

/-- The empty name is taken in every module. -/
lemma export_unnamed (prints : Bool) (blocks : List IR.Block) (name : String) :
    (programOf prints ⟨.named "", ⟨.void, []⟩, [], blocks⟩).export name =
      .error (.duplicateFunction "") := by
  cases prints <;> rfl

/-- Compiled programs are exported one to one, except under the empty name. -/
theorem compiled_exports {c : Node} (ws : c.WellSorted .command) (entry : Key) (prints : Bool)
    {declared : Option (List String)} (admits : c.Admits declared)
    (other : prints = true → entry ≠ .named "print") (name : String) :
    ∃ p d, c.compile entry prints declared = .ok p ∧ p.definitions = [d] ∧ d.name = entry ∧
      (entry ≠ .named "" → ∃ f Γ,
        p.export name = .ok ⟨name, (if prints then [printer] else []) ++ [f]⟩ ∧
        f.name = entry.text ∧ f.ret = .void ∧ f.params = [] ∧
        List.Forall₂ (Block.Mirrors Γ) d.blocks f.blocks) ∧
      (entry = .named "" → p.export name = .error (.duplicateFunction "")) := by
  obtain ⟨p, compiled, shape⟩ := exists_compiled ws entry prints admits
  obtain ⟨body, printing, written⟩ := shape
  refine ⟨_, _, compiled, definitions_programOf _ _, rfl, fun named => ?_, ?_⟩
  · obtain ⟨register, exportable⟩ := exists_exportable body printing written
    obtain ⟨blocks, mirrors, exported⟩ := export_programOf exportable rfl named other name
    exact ⟨_, _, exported, rfl, rfl, rfl, mirrors⟩
  · rintro rfl
    exact export_unnamed prints _ name

/-- The values of two variables are printed at the end of `main`. -/
theorem nestedControl_exports :
    nestedControl.WellSorted .command ∧ nestedControl.Admits (some ["Y", "X"]) ∧
    ∃ p d f Γ, nestedControl.compile (.named "main") true (some ["Y", "X"]) = .ok p ∧
      p.definitions = [d] ∧ p.export defaultModule = .ok ⟨"imp_module", [printer, f]⟩ ∧
      f.name = "main" ∧ List.Forall₂ (Block.Mirrors Γ) d.blocks f.blocks := by
  obtain ⟨ws, admits, _⟩ := nestedControl_ready
  obtain ⟨p, d, compiled, defined, _, exports, _⟩ :=
    compiled_exports ws (.named "main") true admits (by simp) defaultModule
  obtain ⟨f, Γ, exported, named, _, _, mirrors⟩ := exports (by simp)
  exact ⟨ws, admits, p, d, f, Γ, compiled, defined, exported, named, mirrors⟩

/-- A function without a name compiles but is not exported. -/
theorem unnamed_skip_refused :
    ∃ p, Node.skip.compile (.named "") false none = .ok p ∧
      p.export defaultModule = .error (.duplicateFunction "") := by
  have admits : Node.skip.Admits none := trivial
  obtain ⟨p, compiled, body, _⟩ := exists_compiled .skip (.named "") false admits
  exact ⟨_, compiled, export_unnamed false _ defaultModule⟩

end ImpSSA
