import ImpSSA.Proofs.Lists
import ImpSSA.Proofs.IR.Lookup
import ImpSSA.Proofs.Machine.Faults
import ImpSSA.Proofs.Machine.Provenance
import ImpSSA.Proofs.Machine.Steps

/-!
# Safety of verified programs

A run of a verified program never leaves it: the program counter and every saved return address are
at an item of a block, no step crashes, and no fault blames the shape of the program.

`Safe` is the invariant. Besides the addresses it says that every function pointer in the state
names a function of the program, which is what indirect calls rely on. `Safe.exec` shows that steps
keep it, and `Safe.exec_tame` that no error blames the shape of the program.
-/

namespace ImpSSA.Machine
open IR

/-- A place that exists: an item of a block of a definition. -/
def Pc.Valid (p : Program) (pc : Pc) : Prop :=
  ∃ d ∈ p.definitions, d.name = pc.fn ∧ ∃ b ∈ d.blocks, b.label = pc.block ∧ pc.id ∈ b.ids

/-- A function pointer names a function of the program. -/
def Known (p : Program) (v : Value) : Prop := ∀ k, v = .fnPtr k → p.knows k = true

/-- The states that runs of a verified program come to. -/
structure Safe (p : Program) (s : State) : Prop where
  pc : s.pc.Valid p
  stack : ∀ f ∈ s.stack, f.ret.Valid p
  values : s.All (Known p)

/-- The faults that blame the shape of a program. -/
def Fault.structural : Fault → Bool
  | .unknownBlock .. | .invalidCounter .. | .unknownFunction _ => true
  | _ => false

/-- The errors that blame the shape of a program. -/
def Stop.structural : Stop → Bool
  | .fault f => f.structural
  | .crash _ => true

/-- The sources of values provide functions of the program only. -/
lemma provenance_known (p : Program) : Provenance p (fun _ => Known p) where
  literal lit := by
    intro k eq
    rw [eq] at lit
    cases lit
  function known := by
    intro k eq
    cases eq
    exact known
  address _ := by
    intro k eq
    cases eq
  mono _ known := known

/-! ## Places -/

/-- A block that is found makes its items valid places. -/
lemma Pc.Valid.of_block {p fn label b i} (found : p.block? fn label = some b) (mem : i ∈ b.ids) :
    Pc.Valid p ⟨fn, label, i⟩ := by
  obtain ⟨d, defn, block⟩ := Option.bind_eq_some_iff.1 found
  obtain ⟨memd, name⟩ := Program.mem_of_definition? defn
  obtain ⟨memb, lab⟩ := Definition.mem_of_block? block
  exact ⟨d, memd, name, b, memb, lab, mem⟩

/-- The first identifier of a block is one of them. -/
lemma firstId_mem_ids (b : Block) : b.firstId ∈ b.ids := by
  obtain ⟨label, code, term⟩ := b
  cases code with
  | nil => exact List.mem_singleton.2 rfl
  | cons x code => exact List.mem_cons_self

/-- A block is entered at a valid counter. -/
lemma enter_valid {p fn label pc} (h : enter p fn label = .ok pc) : pc.Valid p := by
  unfold enter at h
  split at h
  · rename_i b found
    cases h
    exact .of_block found (firstId_mem_ids b)
  · cases h

/-- The identifier behind another one is one of the block. -/
lemma mem_of_nextId? {b : Block} {i j : InstrId} (h : b.nextId? i = some j) : j ∈ b.ids := by
  obtain ⟨n, index, _⟩ := Option.map_eq_some_iff.1 h
  obtain ⟨item, get⟩ := getElem?_of_indexOfLast index
  have mem : i ∈ b.code.map (·.1) := List.mem_map.2 ⟨_, List.mem_of_getElem? get, rfl⟩
  obtain ⟨j', mem', next⟩ := Block.nextId?_of_mem mem
  rw [h] at next
  cases next
  exact mem'

section
variable {p : Program} (wf : p.WellFormed)
include wf

/-- In a well-formed program a definition starts at a valid place. -/
lemma startOf_valid {d pc} (mem : d ∈ p.definitions) (h : startOf d = some pc) : pc.Valid p := by
  unfold startOf at h
  split at h
  · cases h
  · rename_i b bs eq
    cases h
    have memb : b ∈ d.blocks := by
      rw [eq]
      exact List.mem_cons_self
    rw [Definition.block?_eq (wf.definitions d mem).labels memb]
    exact ⟨d, mem, rfl, b, memb, rfl, firstId_mem_ids b⟩

/-- In a well-formed program every definition has a start. -/
lemma startOf_isSome {d} (mem : d ∈ p.definitions) : ∃ pc, startOf d = some pc := by
  unfold startOf
  split
  · rename_i eq
    exact absurd eq (wf.definitions d mem).nonempty
  · exact ⟨_, rfl⟩

/-- In a well-formed program a valid place has an item, which is a terminator in terminator
position or an instruction of the code. -/
lemma fetch_valid {pc : Pc} (valid : pc.Valid p) :
    ∃ d b item, d ∈ p.definitions ∧ d.name = pc.fn ∧ b ∈ d.blocks ∧
      fetch p pc = .ok (b, item) ∧ (b.term = (pc.id, item) ∨ (pc.id, item) ∈ b.code) := by
  obtain ⟨d, memd, name, b, memb, label, mem⟩ := valid
  obtain ⟨item, found⟩ := Block.item?_of_mem mem
  have block : p.block? pc.fn pc.block = some b := by
    rw [← name, ← label]
    exact wf.block?_eq memd memb
  refine ⟨d, b, item, memd, name, memb, ?_, Block.mem_of_item? found⟩
  rw [fetch, block]
  simp only [found]
  rfl

/-! ## Steps keep the invariant -/

/-- An instruction whose next counter is valid keeps a state safe. -/
lemma Safe.instr {s next i o s'} (safe : Safe p s) (valid : next.Valid p)
    (h : InstrExec p s next i o) (goes : o.next? = some s') : Safe p s' := by
  have values := safe.values.instr (provenance_known p) h goes
  cases h with
  | call _ _ defn _ start =>
    cases goes
    obtain ⟨mem, _⟩ := Program.mem_of_definition? defn
    refine ⟨startOf_valid wf mem start, ?_, values⟩
    exact List.forall_mem_cons.2 ⟨valid, safe.stack⟩
  | _ =>
    cases goes
    exact ⟨valid, safe.stack, values⟩

omit wf in
/-- A return keeps a state safe. -/
lemma Safe.ret {s v o s'} (safe : Safe p s) (values : s'.All (Known p))
    (h : ReturnExec s v o) (goes : o.next? = some s') : Safe p s' := by
  have stack := safe.stack
  cases h with
  | outermost => cases goes
  | discard eq _ =>
    cases goes
    rw [eq, List.forall_mem_cons] at stack
    exact ⟨stack.1, stack.2, values⟩
  | bind eq _ _ =>
    cases goes
    rw [eq, List.forall_mem_cons] at stack
    exact ⟨stack.1, stack.2, values⟩

/-- Steps keep the invariant. -/
lemma Safe.exec {s o s'} (safe : Safe p s) (h : Exec p s o) (goes : o.next? = some s') :
    Safe p s' := by
  have values := safe.values.exec (provenance_known p) h goes
  cases h with
  | instr fetched next h =>
    obtain ⟨block, _⟩ := block?_of_fetch fetched
    exact safe.instr wf (.of_block block (mem_of_nextId? next)) h goes
  | term _ h =>
    cases h with
    | br target =>
      cases goes
      exact ⟨enter_valid target, safe.stack, values⟩
    | condBr _ target =>
      cases goes
      exact ⟨enter_valid target, safe.stack, values⟩
    | retVoid h => exact safe.ret values h goes
    | ret _ h => exact safe.ret values h goes

/-- A run from outside without arguments starts within the invariant. -/
lemma Safe.init {entry s} (h : init p entry [] = .ok s) : Safe p s := by
  obtain ⟨d, pc, defn, start, rfl⟩ := of_init h
  obtain ⟨mem, _⟩ := Program.mem_of_definition? defn
  refine ⟨startOf_valid wf mem start, List.forall_mem_nil _, ?_, List.forall_mem_nil _,
    List.forall_mem_nil _⟩
  exact Env.All.ofList nofun

end

/-! ## Errors -/

/-- The faults about values at hand do not blame the shape of a program. -/
lemma structural_of_ofValues (f : Fault) (h : f.ofValues = true) :
    Stop.faults Stop.structural f = false := by
  cases f with
  | unknownBlock | invalidCounter | unknownFunction => cases h
  | _ => rfl

/-- A pointer that cannot be followed does not blame the shape of a program. -/
lemma deref_tame (memory : List Cell) (v : Value) :
    Tame (Stop.faults Stop.structural) (deref memory v) := by
  unfold deref
  split
  · split
    · exact .error rfl
    · split
      · exact .error rfl
      · split
        · exact .ok _
        · exact .error rfl
  · exact .error rfl

/-- What a call goes to is known: a direct callee was verified, an indirect one is a value. -/
lemma callee_known {p : Program} {env : Env} {f : Value} {fn : Key} (all : Env.All (Known p) env)
    (direct : ∀ k, f = .global k → p.knows k = true) (h : callee p env f = .ok fn) :
    p.knows fn = true := by
  unfold callee at h
  split at h
  · rename_i k
    cases h
    exact direct _ rfl
  · obtain ⟨v, hv, h⟩ := bind_eq_ok.1 h
    split at h
    · rename_i k
      cases h
      exact (provenance_known p).operand (m := 0) all hv _ rfl
    · cases h

section
variable {p : Program} (wf : p.WellFormed)
include wf

/-- Calls of known functions find them, with a block to start at. -/
lemma execCall_tame {s next f args} (all : Env.All (Known p) s.env)
    (direct : ∀ k, f = .global k → p.knows k = true) :
    Tame Stop.structural (execCall p s next f args) := by
  refine .bind (callee_tame structural_of_ofValues p s.env f).faulty fun fn hf => ?_
  refine .bind (operands_tame structural_of_ofValues p s.env args).faulty fun vs _ => ?_
  have known := callee_known all direct (faulty_eq_ok.1 hf)
  split
  · rename_i d defn
    split
    · obtain ⟨mem, _⟩ := Program.mem_of_definition? defn
      obtain ⟨pc, start⟩ := startOf_isSome wf mem
      rw [start]
      exact .ok _
    · exact .error rfl
  · rename_i undefined
    rcases Program.defined_or_declared known with ⟨d, defn⟩ | declared
    · rw [undefined] at defn
      cases defn
    · rw [if_pos declared]
      exact .ok _

/-- The labels of a definition can be entered. -/
lemma enter_of_label {d fn l} (mem : d ∈ p.definitions) (name : d.name = fn) (label : l ∈ d.labels) :
    ∃ pc, enter p fn l = .ok pc := by
  obtain ⟨b, memb, rfl⟩ := List.mem_map.1 label
  exact ⟨_, by rw [enter, ← name, wf.block?_eq mem memb]; rfl⟩

/-- In a safe state nothing blames the shape of the program. -/
lemma Safe.exec_tame {s} (safe : Safe p s) : Tame Stop.structural (Machine.exec p s) := by
  obtain ⟨d, b, item, memd, name, memb, fetched, place⟩ := fetch_valid wf safe.pc
  have block := (wf.definitions d memd).blocks b memb
  rw [Machine.exec, faulty_eq_ok.2 fetched]
  cases item with
  | term t =>
    -- a terminator stands in terminator position, so its targets were checked
    rcases place with eq | mem
    · refine (execTerm_tame structural_of_ofValues ?_).faulty
      intro l target
      obtain ⟨pc, entered⟩ := enter_of_label wf memd name (block.targets (by rw [eq]) l target)
      rw [entered]
      exact .ok _
    · exact absurd (block.code _ mem) (by simp [Item.isTerm])
  | instr i =>
    -- an instruction stands in the code, so it has a successor and its callee was checked
    rcases place with eq | mem
    · exact absurd block.term (by simp [eq, Item.isTerm])
    · obtain ⟨j, _, next⟩ := Block.nextId?_of_mem (List.mem_map.2 ⟨_, mem, rfl⟩)
      have direct : ∀ k, (Item.instr i).callee? = some k → p.knows k = true :=
        fun k callee => block.calls _ mem callee
      simp only [bind, Except.bind, next]
      refine execInstr_tame structural_of_ofValues (fun _ _ _ => deref_tame _ _) ?_
      rintro ty f args rfl
      refine execCall_tame wf safe.values.env fun k eq => direct k ?_
      rw [eq]
      rfl

end

/-- The texts of the faults that blame the shape of a program. -/
def structuralTexts : List String :=
  ["unknown block ", "invalid program counter ", "call to unknown function "]

/-- Other faults are reported with other texts. -/
lemma Fault.text_of_not_structural {f : Fault} (h : f.structural = false) :
    ∀ t ∈ structuralTexts, ¬ t.toList <+: f.message.toList := by
  have all : ∀ {l : List Char}, (∀ t ∈ structuralTexts, ¬ t.toList <+: l ∧ ¬ l <+: t.toList) →
      ∀ rest, ∀ t ∈ structuralTexts, ¬ t.toList <+: l ++ rest :=
    fun differ rest t mem => not_prefix_append (differ t mem)
  cases f with
  | unknownBlock | invalidCounter | unknownFunction => cases h
  | _ =>
    -- `delta`, since the equations of `message` are slow to derive
    delta message
    simp only [String.toList_append, List.append_assoc]
    exact all (by decide) _

/-- Every state that a run of a verified program comes to is at an existing item and has existing
return addresses; from it no step crashes, and none blames the shape of the program. -/
theorem verified_runs_stay_inside {p : Program} {entry : Key} {s : State}
    (verified : p.verify = .ok ()) (reach : Reachable p entry [] s) :
    s.pc.Valid p ∧ (∀ f ∈ s.stack, f.ret.Valid p) ∧ (∀ c, step p s ≠ .crashed c) ∧
      ∀ f, step p s = .faulted f →
        ∀ t ∈ structuralTexts, ¬ t.toList <+: f.message.toList := by
  have wf := Program.verify_ok_iff.1 verified
  have safe : Safe p s := by
    refine reach.of_step (Safe.init wf) ?_
    intro s s' safe next
    exact safe.exec wf (exec_of_next? next) next
  have tame := safe.exec_tame wf
  refine ⟨safe.pc, safe.stack, ?_, ?_⟩
  · intro c crashed
    exact absurd (tame _ (exec_of_crashed crashed)) (by simp [Stop.structural])
  · intro f faulted
    exact Fault.text_of_not_structural (tame _ (exec_of_faulted faulted))

/-- A program that calls a function through a pointer that it keeps in memory. -/
def indirectCall : Program :=
  ⟨[.define ⟨.named "main", ⟨.void, []⟩, [],
      [⟨.anon 0,
        [(.result (.anon 1), .instr (.alloca .i64)),
          (.void 1, .instr (.store .i64 (.global (.named "f")) (.register (.anon 1)))),
          (.result (.anon 2), .instr (.load .i64 (.register (.anon 1)))),
          (.void 2, .instr (.call .void (.register (.anon 2)) []))],
        (.void 3, .term .retVoid)⟩]⟩,
    .define ⟨.named "f", ⟨.void, []⟩, [], [⟨.anon 0, [], (.void 1, .term .retVoid)⟩]⟩]⟩

/-- The program is verified, and comes to a state inside the function that it calls. -/
theorem indirectCall_stays_inside :
    indirectCall.verify = .ok () ∧ ∃ s, Reachable indirectCall (.named "main") [] s ∧
      s.pc.fn = .named "f" ∧ s.pc.Valid indirectCall ∧
      (∀ f ∈ s.stack, f.ret.Valid indirectCall) ∧ (∀ c, step indirectCall s ≠ .crashed c) ∧
      ∀ f, step indirectCall s = .faulted f →
        ∀ t ∈ structuralTexts, ¬ t.toList <+: f.message.toList := by
  have verified : indirectCall.verify = .ok () := rfl
  obtain ⟨s, reach, called⟩ :
      ∃ s, Reachable indirectCall (.named "main") [] s ∧ s.pc.fn = .named "f" :=
    ⟨_, ⟨_, _, _, rfl, .stepped rfl (.stepped rfl (.stepped rfl (.stepped rfl .refl)))⟩, rfl⟩
  exact ⟨verified, s, reach, called, verified_runs_stay_inside verified reach⟩

end ImpSSA.Machine
