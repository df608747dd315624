import ImpSSA.Machine.Run
import ImpSSA.Proofs.Control
import ImpSSA.Proofs.IR.Lookup

/-!
# The positional machine

A second machine for the same programs. Its counter is a position: a function, the index of one of
its blocks and an offset in that block, where the terminator has the offset behind the code. It does
not look for identifiers, which serve as registers only: an instruction goes on at the next offset, a
branch at the start of the first block with the label, and a call at the start of the function.
Operands, arithmetic and cells are those of the block machine.

`Moves` says what a step does to the position and to the stack. In well-formed programs blocks are
entered at their start, gone through one by one and left by their terminator (`step_moves`).
-/

namespace ImpSSA.Positional
open IR Machine

/-- A place by counting: a function, the index of a block and an offset in it. -/
structure Position where
  fn : Key
  block : Nat
  offset : Nat
  deriving DecidableEq, Repr

/-- The next offset of the block. -/
def Position.next (pos : Position) : Position := { pos with offset := pos.offset + 1 }

/-- A suspended caller: its registers, where it goes on and the register that takes the result. -/
structure Frame where
  env : Env
  ret : Position
  dest : Option Key

/-- A state; the caller suspended last comes first. -/
structure State where
  pos : Position
  env : Env
  stack : List Frame
  memory : List Cell

/-- What one step leads to. -/
inductive Outcome where
  | stepped (t : State) (e : Event)
  | external (t : State) (name : Key) (args : List Value)
  | terminated (memory : List Value) (v : Option Value)
  | faulted (f : Fault)
  /-- There is no item at the position. -/
  | lost

/-- The state in which a run goes on. -/
def Outcome.next? : Outcome → Option State
  | .stepped t _ | .external t _ _ => some t
  | .terminated .. | .faulted _ | .lost => none

/-- The event of an internal step. -/
def Outcome.event? : Outcome → Option Event
  | .stepped _ e => some e
  | .external .. | .terminated .. | .faulted _ | .lost => none

/-- The block of a position. -/
def blockAt? (p : Program) (pos : Position) : Option Block :=
  (p.definition? pos.fn).bind (·.blocks[pos.block]?)

/-- The item at a position. -/
def itemAt? (p : Program) (pos : Position) : Option (InstrId × Item) :=
  (blockAt? p pos).bind (·.items[pos.offset]?)

/-- Where a block starts. -/
def enter (p : Program) (fn label : Key) : Except Fault Position :=
  match (p.definition? fn).bind (·.blocks.findIdx? (·.label = label)) with
  | some i => pure ⟨fn, i, 0⟩
  | none => throw (.unknownBlock fn label)

/-- Calls a function, with the result for `i`. -/
def execCall (p : Program) (t : State) (i : InstrId) (f : Value) (args : List (Ty × Value)) :
    Except Fault Outcome := do
  let fn ← callee p t.env f
  let vs ← args.mapM fun (_, v) => operand p t.env v
  match p.definition? fn with
  | some d =>
    if d.params.length = vs.length then
      let frame : Frame := ⟨t.env, t.pos.next, i.register?⟩
      let env := Table.ofList (d.params.zip vs)
      pure (.stepped ⟨⟨d.name, 0, 0⟩, env, frame :: t.stack, t.memory⟩ .call)
    else
      throw (.arity fn d.params.length vs.length)
  | none =>
    if p.declares fn then
      pure (.external { t with pos := t.pos.next, env := Env.result t.env i .undef } fn vs)
    else
      throw (.unknownFunction fn)

/-- Goes on at the next offset with the value of `i`. -/
def State.bind (t : State) (i : InstrId) (v : Value) : Outcome :=
  .stepped { t with pos := t.pos.next, env := Env.result t.env i v } .step

/-- Executes an instruction, with the result for `i`. -/
def execInstr (p : Program) (t : State) (i : InstrId) (x : Instr) : Except Fault Outcome :=
  match x with
  | .binop op ty l r => do
    let u ← operand p t.env l
    let v ← operand p t.env r
    let w ← binary op ty u v
    pure (t.bind i w)
  | .icmp c _ l r => do
    let u ← operand p t.env l
    let v ← operand p t.env r
    let w ← comparison c u v
    pure (t.bind i w)
  | .alloca _ =>
    let env := Env.result t.env i (.addr t.memory.length)
    let memory := t.memory ++ [⟨.undef, t.stack.length, true⟩]
    pure (.stepped { t with pos := t.pos.next, env, memory } .step)
  | .load _ ptr => do
    let v ← operand p t.env ptr
    let (_, cell) ← deref t.memory v
    pure (t.bind i cell.value)
  | .store _ value ptr => do
    let u ← operand p t.env value
    let v ← operand p t.env ptr
    let (n, cell) ← deref t.memory v
    let memory := t.memory.set n { cell with value := u }
    pure (.stepped { t with pos := t.pos.next, memory } .step)
  | .call _ f args => execCall p t i f args
  | .foreign => throw (.unsupportedInstr x)

/-- Returns from the running function. -/
def execReturn (t : State) (v : Option Value) : Except Fault Outcome :=
  match t.stack with
  | [] => pure (.terminated (t.memory.map (·.value)) v)
  | frame :: stack =>
    let memory := t.memory.map (Cell.release t.stack.length)
    match frame.dest, v with
    | none, _ => pure (.stepped ⟨frame.ret, frame.env, stack, memory⟩ .ret)
    | some k, some v => pure (.stepped ⟨frame.ret, frame.env.insert k v, stack, memory⟩ .ret)
    | some k, none => throw (.voidResult k)

/-- Executes a terminator. -/
def execTerm (p : Program) (t : State) (x : Term) : Except Fault Outcome :=
  match x with
  | .br target => do
    let pos ← enter p t.pos.fn target
    pure (.stepped { t with pos } .step)
  | .condBr c l l' => do
    match ← operand p t.env c with
    | .bool b => do
      let pos ← enter p t.pos.fn (if b then l else l')
      pure (.stepped { t with pos } .step)
    | v => throw (.nonBoolean v)
  | .retVoid => execReturn t none
  | .ret _ v => do
    let v ← operand p t.env v
    execReturn t (some v)
  | .foreign => throw (.unsupportedTerm x)

/-- Executes the item `x` with the identifier `i`. -/
def exec (p : Program) (t : State) (i : InstrId) (x : Item) : Except Fault Outcome :=
  match x with
  | .instr x => execInstr p t i x
  | .term x => execTerm p t x

/-- One step. -/
def step (p : Program) (t : State) : Outcome :=
  match itemAt? p t.pos with
  | none => .lost
  | some (i, x) =>
    match exec p t i x with
    | .ok o => o
    | .error f => .faulted f

/-- The state in which a call of `entry` from outside starts. -/
def init (p : Program) (entry : Key) (args : List Value) : Except EntryError State :=
  match p.definition? entry with
  | none => throw (.notFound entry)
  | some d =>
    if d.params.length = args.length then
      if d.blocks.isEmpty then throw (.noBlocks entry)
      else pure ⟨⟨d.name, 0, 0⟩, Table.ofList (d.params.zip args), [], []⟩
    else
      throw (.arity entry d.params.length args.length)

/-- The states of a run of `entry` with `args`, up to the one after `n` steps. -/
structure History (p : Program) (entry : Key) (args : List Value) (n : Nat) (t : Nat → State) :
    Prop where
  start : init p entry args = .ok (t 0)
  next {i : Nat} : i < n → (step p (t i)).next? = some (t (i + 1))

/-! ## How positions move -/

/-- What a step with an event does to the position and to the stack. Instructions go on at the next
offset, now or when the function that they call has returned; terminators leave the block. -/
inductive Moves (p : Program) (t : State) : Option Event → State → Prop where
  | next {b e t'} :
    blockAt? p t.pos = some b →
    t.pos.offset < b.code.length →
    e ≠ some .call →
    e ≠ some .ret →
    t'.pos = t.pos.next →
    t'.stack = t.stack →
    Moves p t e t'
  | call {b fn dest t'} :
    blockAt? p t.pos = some b →
    t.pos.offset < b.code.length →
    t'.pos = ⟨fn, 0, 0⟩ →
    t'.stack = ⟨t.env, t.pos.next, dest⟩ :: t.stack →
    Moves p t (some .call) t'
  | branch {b i t'} :
    blockAt? p t.pos = some b →
    t.pos.offset = b.code.length →
    t'.pos = ⟨t.pos.fn, i, 0⟩ →
    t'.stack = t.stack →
    Moves p t (some .step) t'
  | ret {b frame t'} :
    blockAt? p t.pos = some b →
    t.pos.offset = b.code.length →
    t.stack = frame :: t'.stack →
    t'.pos = frame.ret →
    Moves p t (some .ret) t'

/-- In a well-formed program the block of a position is found by its label as well, and is well
formed. -/
lemma of_blockAt? {p : Program} {pos : Position} {b : Block} (wf : p.WellFormed)
    (found : blockAt? p pos = some b) :
    ∃ d ∈ p.definitions, d.name = pos.fn ∧ b.WellFormed d.labels p ∧ b.ids.Nodup ∧
      p.block? pos.fn b.label = some b := by
  obtain ⟨d, defn, get⟩ := Option.bind_eq_some_iff.1 found
  obtain ⟨memd, name⟩ := Program.mem_of_definition? defn
  have memb : b ∈ d.blocks := List.mem_of_getElem? get
  refine ⟨d, memd, name, (wf.definitions d memd).blocks b memb, ?_, ?_⟩
  · exact (List.nodup_flatMap.1 (wf.definitions d memd).ids).1 b memb
  · rw [← name]
    exact wf.block?_eq memd memb

/-- In a well-formed block the terminator stands behind the code, and nowhere else. -/
lemma offset_of_item {b : Block} {labels : List Key} {p : Program} (wf : b.WellFormed labels p)
    {k : Nat} {i : InstrId} {x : Item} (get : b.items[k]? = some (i, x)) :
    (x.isTerm = false ∧ k < b.code.length) ∨ (x.isTerm = true ∧ k = b.code.length) := by
  rw [Block.items] at get
  by_cases inside : k < b.code.length
  · rw [List.getElem?_append_left inside] at get
    exact .inl ⟨wf.code _ (List.mem_of_getElem? get), inside⟩
  · rw [List.getElem?_append_right (Nat.not_lt.1 inside)] at get
    obtain ⟨last, eq⟩ := List.getElem?_eq_some_iff.1 get
    have last : k - b.code.length = 0 := Nat.lt_one_iff.1 last
    simp only [last, List.getElem_cons_zero] at eq
    refine .inr ⟨?_, by omega⟩
    have term := wf.term
    rwa [eq] at term

section
variable {p : Program} {t t' : State} {o : Outcome}

/-- A block is entered at its first item. -/
lemma enter_eq_ok {fn label pos} (h : enter p fn label = .ok pos) : ∃ i, pos = ⟨fn, i, 0⟩ := by
  unfold enter at h
  split at h
  · cases h
    exact ⟨_, rfl⟩
  · cases h

/-- A call goes to the first block of a function, or on behind itself. -/
lemma execCall_moves {b i f args} (found : blockAt? p t.pos = some b)
    (inside : t.pos.offset < b.code.length) (h : execCall p t i f args = .ok o)
    (goes : o.next? = some t') : Moves p t o.event? t' := by
  obtain ⟨fn, _, h⟩ := bind_eq_ok.1 h
  obtain ⟨vs, _, h⟩ := bind_eq_ok.1 h
  split at h
  · split at h
    · cases h
      cases goes
      exact .call found inside rfl rfl
    · cases h
  · split at h
    · cases h
      cases goes
      exact .next found inside nofun nofun rfl rfl
    · cases h

/-- An instruction goes on at the next offset, unless it calls a function. -/
lemma execInstr_moves {b i x} (found : blockAt? p t.pos = some b)
    (inside : t.pos.offset < b.code.length) (h : execInstr p t i x = .ok o)
    (goes : o.next? = some t') : Moves p t o.event? t' := by
  cases x with
  | binop | icmp =>
    obtain ⟨u, _, h⟩ := bind_eq_ok.1 h
    obtain ⟨v, _, h⟩ := bind_eq_ok.1 h
    obtain ⟨w, _, h⟩ := bind_eq_ok.1 h
    cases h
    cases goes
    exact .next found inside nofun nofun rfl rfl
  | alloca =>
    cases h
    cases goes
    exact .next found inside nofun nofun rfl rfl
  | load =>
    obtain ⟨v, _, h⟩ := bind_eq_ok.1 h
    obtain ⟨⟨n, cell⟩, _, h⟩ := bind_eq_ok.1 h
    cases h
    cases goes
    exact .next found inside nofun nofun rfl rfl
  | store =>
    obtain ⟨u, _, h⟩ := bind_eq_ok.1 h
    obtain ⟨v, _, h⟩ := bind_eq_ok.1 h
    obtain ⟨⟨n, cell⟩, _, h⟩ := bind_eq_ok.1 h
    cases h
    cases goes
    exact .next found inside nofun nofun rfl rfl
  | call => exact execCall_moves found inside h goes
  | foreign => cases h

/-- A return goes to the position that was kept for it. -/
lemma execReturn_moves {b v} (found : blockAt? p t.pos = some b)
    (last : t.pos.offset = b.code.length) (h : execReturn t v = .ok o)
    (goes : o.next? = some t') : Moves p t o.event? t' := by
  unfold execReturn at h
  split at h
  · cases h
    cases goes
  · rename_i frame stack eq
    split at h
    · cases h
      cases goes
      exact .ret found last eq rfl
    · cases h
      cases goes
      exact .ret found last eq rfl
    · cases h

/-- A terminator goes to the start of a block, or behind the call of the running function. -/
lemma execTerm_moves {b x} (found : blockAt? p t.pos = some b)
    (last : t.pos.offset = b.code.length) (h : execTerm p t x = .ok o)
    (goes : o.next? = some t') : Moves p t o.event? t' := by
  cases x with
  | br target =>
    obtain ⟨pos, entered, h⟩ := bind_eq_ok.1 h
    obtain ⟨i, rfl⟩ := enter_eq_ok entered
    cases h
    cases goes
    exact .branch found last rfl rfl
  | condBr c l l' =>
    obtain ⟨v, _, h⟩ := bind_eq_ok.1 h
    split at h
    · obtain ⟨pos, entered, h⟩ := bind_eq_ok.1 h
      obtain ⟨i, rfl⟩ := enter_eq_ok entered
      cases h
      cases goes
      exact .branch found last rfl rfl
    · cases h
  | retVoid => exact execReturn_moves found last h goes
  | ret ty v =>
    obtain ⟨w, _, h⟩ := bind_eq_ok.1 h
    exact execReturn_moves found last h goes
  | foreign => cases h

/-- A step that goes on executed the item at the position. -/
lemma of_step (goes : (step p t).next? = some t') :
    ∃ b i x, blockAt? p t.pos = some b ∧ b.items[t.pos.offset]? = some (i, x) ∧
      exec p t i x = .ok (step p t) := by
  unfold step at goes ⊢
  split at goes
  · cases goes
  · rename_i i x found
    obtain ⟨b, block, item⟩ := Option.bind_eq_some_iff.1 found
    split at goes
    · rename_i executed
      refine ⟨b, i, x, block, item, ?_⟩
      simp only [executed]
    · cases goes

/-- Steps in a well-formed program move as `Moves` says. -/
lemma step_moves (wf : p.WellFormed) (goes : (step p t).next? = some t') :
    Moves p t (step p t).event? t' := by
  obtain ⟨b, i, x, found, item, executed⟩ := of_step goes
  obtain ⟨d, _, _, block, _, _⟩ := of_blockAt? wf found
  rcases offset_of_item block item with ⟨kind, inside⟩ | ⟨kind, last⟩
  · cases x with
    | instr x => exact execInstr_moves found inside executed goes
    | term x => cases kind
  · cases x with
    | instr x => cases kind
    | term x => exact execTerm_moves found last executed goes

end

end ImpSSA.Positional
