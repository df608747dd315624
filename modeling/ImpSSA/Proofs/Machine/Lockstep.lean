import Mathlib.Data.List.Intervals
import ImpSSA.Proofs.Machine.History
import ImpSSA.Proofs.Machine.Positional

/-!
# Verified programs run by position

The block machine keeps its place by identifier. In a verified program this is the same as keeping
it by position: a state of the positional machine that `Tracks` one of the block machine stands at
the item of its program counter, has the same registers and cells, and suspended the same callers at
the same places. One step of each has the same outcome (`Tracks.step`), so whole runs stay together.

The order of execution follows from `Moves` alone. An activation of a block is at an offset of it,
or is suspended behind a call of it (`Activation`). As long as its terminator was not executed, it
has executed the items in front of that offset, each once and in order. The main result is
`verified_runs_by_position`.
-/

namespace ImpSSA.Positional
open IR Machine

/-- The program counter of the block machine for a position. -/
def Position.pc? (p : Program) (pos : Position) : Option Pc :=
  (blockAt? p pos).bind fun b => (b.items[pos.offset]?).map fun (i, _) => ⟨pos.fn, b.label, i⟩

/-- The two machines suspended the same caller. -/
structure FrameTracks (p : Program) (f : Machine.Frame) (g : Frame) : Prop where
  env : f.env = g.env
  ret : g.ret.pc? p = some f.ret
  dest : f.dest = g.dest

/-- The two machines are in the same state, one of them by identifier and the other by position. -/
structure Tracks (p : Program) (s : Machine.State) (t : State) : Prop where
  pos : t.pos.pc? p = some s.pc
  env : s.env = t.env
  stack : List.Forall₂ (FrameTracks p) s.stack t.stack
  memory : s.memory = t.memory

/-- The two machines do the same: neither of them crashes or is lost. -/
inductive SameOutcome (p : Program) : Machine.Outcome → Outcome → Prop where
  | stepped {s t e} :
    Tracks p s t →
    SameOutcome p (.stepped s e) (.stepped t e)
  | external {s t name args} :
    Tracks p s t →
    SameOutcome p (.external s name args) (.external t name args)
  | terminated {memory v} :
    SameOutcome p (.terminated memory v) (.terminated memory v)
  | faulted {f} :
    SameOutcome p (.faulted f) (.faulted f)

/-- Outcomes that are the same show the same event. -/
lemma SameOutcome.event? {p o o'} (same : SameOutcome p o o') : o.event? = o'.event? := by
  cases same <;> rfl

/-- Outcomes that are the same lead to states that track each other. -/
lemma SameOutcome.next {p o o' s} (same : SameOutcome p o o') (goes : o.next? = some s) :
    ∃ t, o'.next? = some t ∧ Tracks p s t := by
  cases same with
  | stepped tracks | external tracks =>
    cases goes
    exact ⟨_, rfl, tracks⟩
  | terminated | faulted => cases goes

/-- What is executed has the same outcome or the same fault. -/
inductive Agrees (p : Program) : Except Stop Machine.Outcome → Except Fault Outcome → Prop where
  | ok {o o'} :
    SameOutcome p o o' →
    Agrees p (.ok o) (.ok o')
  | fault {f} :
    Agrees p (.error (.fault f)) (.error f)

/-- Computations agree if they do after a common first part. -/
lemma Agrees.bind {p : Program} {α : Type} {x : Except Fault α}
    {f : α → Except Stop Machine.Outcome} {g : α → Except Fault Outcome} (h : ∀ a, Agrees p (f a) (g a)) :
    Agrees p (faulty x >>= f) (x >>= g) := by
  cases x with
  | ok a => exact h a
  | error e => exact .fault

/-- Faults of a whole are those of its parts. -/
lemma faulty_bind {α β : Type} {x : Except Fault α} {f : α → Except Fault β} :
    faulty (x >>= f) = faulty x >>= fun a => faulty (f a) := by
  cases x <;> rfl

/-! ## Places -/

/-- A block has a first item, which its first identifier belongs to. -/
lemma items_zero (b : Block) : ∃ x, b.items[0]? = some (b.firstId, x) := by
  obtain ⟨label, code, term⟩ := b
  cases code <;> exact ⟨_, rfl⟩

/-- The last item of a block is its terminator. -/
lemma items_last (b : Block) : b.items[b.code.length]? = some b.term :=
  List.getElem?_concat_length

/-- An item with what stands in front of it and behind it. -/
lemma items_split {b : Block} {k : Nat} {x : InstrId × Item} (get : b.items[k]? = some x) :
    b.items = b.items.take k ++ x :: b.items.drop (k + 1) := by
  obtain ⟨lt, rfl⟩ := List.getElem?_eq_some_iff.1 get
  rw [← List.drop_eq_getElem_cons lt, List.take_append_drop]

section
variable {p : Program} {pc : Pc} {pos : Position}

/-- A position in a block is the counter of the item there. -/
lemma pc?_eq_some {b : Block} {i : InstrId} {x : Item} (found : blockAt? p pos = some b)
    (item : b.items[pos.offset]? = some (i, x)) : pos.pc? p = some ⟨pos.fn, b.label, i⟩ := by
  rw [Position.pc?, found, Option.bind_some, item]
  rfl

/-- A position with a counter is that of an item in a block. -/
lemma of_pc? (here : pos.pc? p = some pc) :
    ∃ b x, blockAt? p pos = some b ∧ b.items[pos.offset]? = some (pc.id, x) ∧
      pc.fn = pos.fn ∧ pc.block = b.label := by
  obtain ⟨b, found, eq⟩ := Option.bind_eq_some_iff.1 here
  obtain ⟨⟨i, x⟩, item, rfl⟩ := Option.map_eq_some_iff.1 eq
  exact ⟨b, x, found, item, rfl, rfl⟩

/-- A return does the same by identifier and by position. -/
lemma execReturn_agrees {s : Machine.State} {t : State} (tracks : Tracks p s t) (v : Option Value) :
    Agrees p (faulty (Machine.execReturn s v)) (execReturn t v) := by
  obtain ⟨pc, env, stack, memory⟩ := s
  obtain ⟨pos, env, stack', memory⟩ := t
  obtain ⟨here, rfl, frames, rfl⟩ := tracks
  cases frames with
  | nil => exact .ok .terminated
  | @cons f g fs gs frame frames =>
    obtain ⟨env', ret, dest⟩ := f
    obtain ⟨env', ret', dest⟩ := g
    obtain ⟨rfl, back, rfl⟩ := frame
    have released : memory.map (Cell.release (fs.length + 1)) =
        memory.map (Cell.release (gs.length + 1)) := by rw [frames.length_eq]
    cases dest with
    | none => exact .ok (.stepped ⟨back, rfl, frames, released⟩)
    | some k =>
      cases v with
      | none => exact .fault
      | some v => exact .ok (.stepped ⟨back, rfl, frames, released⟩)

variable (wf : p.WellFormed)
include wf

/-- The item of the program counter is the one at the position. -/
lemma fetch_pc? (here : pos.pc? p = some pc) :
    ∃ b x, blockAt? p pos = some b ∧ b.items[pos.offset]? = some (pc.id, x) ∧
      fetch p pc = .ok (b, x) := by
  obtain ⟨b, x, found, item, fn, label⟩ := of_pc? here
  obtain ⟨_, _, _, _, nd, block⟩ := of_blockAt? wf found
  refine ⟨b, x, found, item, ?_⟩
  rw [fetch, fn, label, block]
  simp only [Block.item?_append nd (items_split item)]
  rfl

/-- The identifier after that of an instruction is the one at the next offset. -/
lemma next_pc? {b : Block} (here : pos.pc? p = some pc) (found : blockAt? p pos = some b)
    (inside : pos.offset < b.code.length) :
    ∃ j, b.nextId? pc.id = some j ∧ pos.next.pc? p = some { pc with id := j } := by
  obtain ⟨b', x, found', item, fn, label⟩ := of_pc? here
  obtain rfl : b' = b := Option.some.inj (found'.symm.trans found)
  obtain ⟨_, _, _, _, nd, _⟩ := of_blockAt? wf found
  obtain ⟨⟨j, y⟩, item'⟩ : ∃ y, b'.items[pos.offset + 1]? = some y := by
    have lt : pos.offset + 1 < b'.items.length := by
      rw [Block.items, List.length_append]
      exact Nat.succ_lt_succ inside
    exact ⟨_, List.getElem?_eq_getElem lt⟩
  refine ⟨j, ?_, ?_⟩
  · apply Block.nextId?_append nd
    obtain ⟨lt, eq⟩ := List.getElem?_eq_some_iff.1 item'
    rw [← eq, ← List.drop_eq_getElem_cons lt]
    exact items_split item
  · rw [fn, label]
    exact pc?_eq_some found item'

/-- The block of the program counter is that of the position. -/
lemma blockAt?_pc? {b : Block} (here : pos.pc? p = some pc)
    (block : p.block? pc.fn pc.block = some b) : blockAt? p pos = some b := by
  obtain ⟨b', x, found, _, fn, label⟩ := of_pc? here
  obtain ⟨_, _, _, _, _, block'⟩ := of_blockAt? wf found
  rw [fn, label, block'] at block
  rw [found, block]

/-- In its block the identifier determines the offset. -/
lemma offset_eq_of_id {b : Block} {k : Nat} {y : Item} (here : pos.pc? p = some pc)
    (found : blockAt? p pos = some b) (item : b.items[k]? = some (pc.id, y)) : pos.offset = k := by
  obtain ⟨b', x, found', item', _, _⟩ := of_pc? here
  obtain rfl : b' = b := Option.some.inj (found'.symm.trans found)
  obtain ⟨_, _, _, _, nd, _⟩ := of_blockAt? wf found
  have eq : b'.ids[pos.offset]? = b'.ids[k]? := by
    rw [Block.ids, List.getElem?_map, List.getElem?_map, item, item']
    rfl
  obtain ⟨lt, _⟩ := List.getElem?_eq_some_iff.1 item'
  have lt : pos.offset < b'.ids.length := by rwa [Block.ids, List.length_map]
  exact (List.getElem?_inj lt nd).1 eq

/-- A call starts at offset 0 of the first block. -/
lemma startOf_pc? {d : Definition} (mem : d ∈ p.definitions) :
    ∃ start, startOf d = some start ∧ Position.pc? p ⟨d.name, 0, 0⟩ = some start := by
  have defn := wf.definition?_eq mem
  have labels := (wf.definitions d mem).labels
  cases eq : d.blocks with
  | nil => exact absurd eq (wf.definitions d mem).nonempty
  | cons b bs =>
    obtain ⟨x, item⟩ := items_zero b
    have block : d.block? b.label = some b := Definition.block?_eq labels (eq ▸ List.mem_cons_self)
    have found : blockAt? p ⟨d.name, 0, 0⟩ = some b := by
      simp only [blockAt?, defn, Option.bind_some, eq, List.getElem?_cons_zero]
    refine ⟨⟨d.name, b.label, b.firstId⟩, ?_, pc?_eq_some found item⟩
    simp only [startOf, eq, block, Option.getD_some]

/-- A branch enters a block at its first identifier, which is offset 0 of the block of the label. -/
lemma enter_pc? (fn label : Key) :
    (∃ start pos, Machine.enter p fn label = .ok start ∧ enter p fn label = .ok pos ∧
      pos.pc? p = some start) ∨
    ∃ f, Machine.enter p fn label = .error f ∧ enter p fn label = .error f := by
  cases defn : p.definition? fn with
  | none =>
    refine .inr ⟨.unknownBlock fn label, ?_, ?_⟩
    · rw [Machine.enter, Program.block?, defn]
      rfl
    · rw [enter, defn]
      rfl
  | some d =>
    have labels := (wf.definitions d (Program.mem_of_definition? defn).1).labels
    cases index : d.blocks.findIdx? (·.label = label) with
    | none =>
      have none : d.block? label = none := by
        apply List.find?_eq_none.2
        intro b mem
        have other := List.findIdx?_eq_none_iff.1 index b (List.mem_reverse.1 mem)
        simpa using other
      refine .inr ⟨.unknownBlock fn label, ?_, ?_⟩
      · rw [Machine.enter, Program.block?, defn, Option.bind_some, none]
        rfl
      · rw [enter, defn, Option.bind_some, index]
        rfl
    | some k =>
      obtain ⟨lt, eq, _⟩ := List.findIdx?_eq_some_iff_getElem.1 index
      have eq := of_decide_eq_true eq
      obtain ⟨x, item⟩ := items_zero d.blocks[k]
      have found : blockAt? p ⟨fn, k, 0⟩ = some d.blocks[k] := by
        simp only [blockAt?, defn, Option.bind_some, List.getElem?_eq_getElem lt]
      refine .inl ⟨⟨fn, label, d.blocks[k].firstId⟩, ⟨fn, k, 0⟩, ?_, ?_, ?_⟩
      · have block := Definition.block?_eq labels (List.getElem_mem lt)
        rw [eq] at block
        rw [Machine.enter, Program.block?, defn, Option.bind_some, block]
        rfl
      · rw [enter, defn, Option.bind_some, index]
        rfl
      · rw [pc?_eq_some found item, eq]

/-! ## Steps -/

variable {s : Machine.State} {t : State}

/-- Both machines do the same on a call. -/
lemma execCall_agrees {next : Pc} {f : Value} {args : List (Ty × Value)} (tracks : Tracks p s t)
    (behind : t.pos.next.pc? p = some next) :
    Agrees p (Machine.execCall p s next f args) (execCall p t s.pc.id f args) := by
  obtain ⟨pc, env, stack, memory⟩ := s
  obtain ⟨pos, env, stack', memory⟩ := t
  obtain ⟨here, rfl, frames, rfl⟩ := tracks
  refine Agrees.bind fun fn => Agrees.bind fun vs => ?_
  cases defn : p.definition? fn with
  | none =>
    by_cases declared : p.declares fn = true
    · simp only [declared, if_true]
      exact .ok (.external ⟨behind, rfl, frames, rfl⟩)
    · simp only [declared]
      exact .fault
  | some d =>
    obtain ⟨start, started, here'⟩ := startOf_pc? wf (Program.mem_of_definition? defn).1
    by_cases arity : d.params.length = vs.length
    · simp only [arity, if_true, started]
      exact .ok (.stepped ⟨here', rfl, .cons ⟨rfl, behind, rfl⟩ frames, rfl⟩)
    · simp only [arity, if_false]
      exact .fault

/-- An instruction does the same by identifier and by position. -/
lemma execInstr_agrees {next : Pc} {x : Instr} (tracks : Tracks p s t)
    (behind : t.pos.next.pc? p = some next) :
    Agrees p (Machine.execInstr p s next x) (execInstr p t s.pc.id x) := by
  obtain ⟨pc, env, stack, memory⟩ := s
  obtain ⟨pos, env, stack', memory⟩ := t
  obtain ⟨here, rfl, frames, rfl⟩ := tracks
  cases x with
  | call ty f args => exact execCall_agrees wf ⟨here, rfl, frames, rfl⟩ behind
  | foreign => exact .fault
  | binop op ty l r =>
    refine Agrees.bind fun u => Agrees.bind fun v => Agrees.bind fun w => ?_
    exact .ok (.stepped ⟨behind, rfl, frames, rfl⟩)
  | icmp c ty l r =>
    refine Agrees.bind fun u => Agrees.bind fun v => Agrees.bind fun w => ?_
    exact .ok (.stepped ⟨behind, rfl, frames, rfl⟩)
  | alloca ty =>
    refine .ok (.stepped ⟨behind, rfl, frames, ?_⟩)
    simp only [frames.length_eq]
  | load ty ptr =>
    refine Agrees.bind fun v => Agrees.bind fun ⟨n, cell⟩ => ?_
    exact .ok (.stepped ⟨behind, rfl, frames, rfl⟩)
  | store ty value ptr =>
    refine Agrees.bind fun u => Agrees.bind fun v => Agrees.bind fun ⟨n, cell⟩ => ?_
    exact .ok (.stepped ⟨behind, rfl, frames, rfl⟩)

/-- Both machines do the same on a branch. -/
lemma branch_agrees (tracks : Tracks p s t) (label : Key) :
    Agrees p
      (faulty (Machine.enter p s.pc.fn label >>= fun pc => pure (.stepped { s with pc } .step)))
      (enter p t.pos.fn label >>= fun pos => pure (.stepped { t with pos } .step)) := by
  obtain ⟨_, _, _, _, fn, _⟩ := of_pc? tracks.pos
  rw [fn]
  rcases enter_pc? wf t.pos.fn label with ⟨start, pos, entered, entered', here⟩ | ⟨f, left, left'⟩
  · rw [entered, entered']
    exact .ok (.stepped ⟨here, tracks.env, tracks.stack, tracks.memory⟩)
  · rw [left, left']
    exact .fault

/-- A terminator does the same by identifier and by position. -/
lemma execTerm_agrees {x : Term} (tracks : Tracks p s t) :
    Agrees p (faulty (Machine.execTerm p s x)) (execTerm p t x) := by
  obtain ⟨pc, env, stack, memory⟩ := s
  obtain ⟨pos, env, stack', memory⟩ := t
  have same := tracks
  obtain ⟨here, rfl, frames, rfl⟩ := same
  cases x with
  | br target => exact branch_agrees wf tracks target
  | condBr c l l' =>
    rw [Machine.execTerm, faulty_bind]
    refine Agrees.bind fun v => ?_
    cases v with
    | bool b => exact branch_agrees wf tracks (if b then l else l')
    | _ => exact .fault
  | retVoid => exact execReturn_agrees tracks none
  | ret ty v =>
    rw [Machine.execTerm, faulty_bind]
    exact Agrees.bind fun v => execReturn_agrees tracks (some v)
  | foreign => exact .fault

/-- The two machines take the same step. -/
lemma Tracks.step (tracks : Tracks p s t) : SameOutcome p (Machine.step p s) (step p t) := by
  obtain ⟨b, x, found, item, fetched⟩ := fetch_pc? wf tracks.pos
  have here : itemAt? p t.pos = some (s.pc.id, x) := by
    rw [itemAt?, found]
    exact item
  have agrees : Agrees p (Machine.exec p s) (exec p t s.pc.id x) := by
    rw [Machine.exec, faulty_eq_ok.2 fetched]
    obtain ⟨d, _, _, block, _, _⟩ := of_blockAt? wf found
    cases x with
    | term x => exact execTerm_agrees wf tracks
    | instr x =>
      rcases offset_of_item block item with ⟨_, inside⟩ | ⟨kind, _⟩
      · obtain ⟨j, succ, behind⟩ := next_pc? wf tracks.pos found inside
        simp only [bind, Except.bind, succ]
        exact execInstr_agrees wf tracks behind
      · cases kind
  simp only [Machine.step, Positional.step, here]
  generalize Machine.exec p s = r at agrees ⊢
  generalize exec p t s.pc.id x = r' at agrees ⊢
  cases agrees with
  | ok same => exact same
  | fault => exact .faulted

/-- The two machines start in the same state. -/
lemma init_tracks {entry : Key} {args : List Value} (start : Machine.init p entry args = .ok s) :
    ∃ t, init p entry args = .ok t ∧ Tracks p s t ∧ t.pos = ⟨entry, 0, 0⟩ := by
  unfold Machine.init at start
  split at start
  · cases start
  · rename_i d defn
    obtain ⟨mem, rfl⟩ := Program.mem_of_definition? defn
    obtain ⟨pc, started, here⟩ := startOf_pc? wf mem
    have nonempty : d.blocks.isEmpty = false := by
      simpa using (wf.definitions d mem).nonempty
    split at start
    · rename_i arity
      rw [started] at start
      cases start
      refine ⟨⟨⟨d.name, 0, 0⟩, _, [], []⟩, ?_, ⟨here, rfl, .nil, rfl⟩, rfl⟩
      simp only [init, defn, arity, if_true, nonempty]
      rfl
    · cases start

end

/-! ## Runs -/

/-- Two runs of `n` steps, by identifier and by position, that do the same step by step. -/
structure Lockstep (p : Program) (n : Nat) (s : Nat → Machine.State) (t : Nat → State) : Prop where
  tracks {i : Nat} : i ≤ n → Tracks p (s i) (t i)
  same {i : Nat} : i ≤ n → SameOutcome p (Machine.step p (s i)) (step p (t i))
  moves {i : Nat} : i < n → Moves p (t i) (Machine.step p (s i)).event? (t (i + 1))

section
variable {p : Program} {entry : Key} {args : List Value} {n : Nat} {s : Nat → Machine.State}

/-- Machines that start in the same state stay in lock-step. -/
lemma exists_lockstep {t₀ : State} (wf : p.WellFormed) (run : Machine.History p entry args n s)
    (tracks : Tracks p (s 0) t₀) :
    ∃ t, t 0 = t₀ ∧ Lockstep p n s t ∧ ∀ {i}, i < n → (step p (t i)).next? = some (t (i + 1)) := by
  let t := stateAfter (fun t => (step p t).next?) t₀
  have next {i} (lt : i < n) (tracks : Tracks p (s i) (t i)) :
      (step p (t i)).next? = some (t (i + 1)) ∧ Tracks p (s (i + 1)) (t (i + 1)) := by
    obtain ⟨t', goes, tracks'⟩ := (tracks.step wf).next (run.next lt)
    have eq : t (i + 1) = t' := stateAfter_succ goes
    rw [eq]
    exact ⟨goes, tracks'⟩
  have all {i} (le : i ≤ n) : Tracks p (s i) (t i) := by
    induction i with
    | zero => exact tracks
    | succ i ih => exact (next le (ih (Nat.le_of_succ_le le))).2
  refine ⟨t, rfl, ⟨all, fun le => (all le).step wf, fun lt => ?_⟩, fun lt => (next lt (all lt.le)).1⟩
  rw [((all lt.le).step wf).event?]
  exact step_moves wf (next lt (all lt.le)).1

/-- An activation of the block of `pos` that was entered with the stack `base`. Its next item is at
offset `m`: it is executed now, or when the function called by the one before it has returned. -/
inductive Activation (pos : Position) (base : List Frame) (m : Nat) (t : State) : Prop where
  | running :
    t.pos = { pos with offset := m } →
    t.stack = base →
    Activation pos base m t
  | suspended {frame} :
    frame.ret = { pos with offset := m } →
    frame :: base <:+ t.stack →
    Activation pos base m t

section
variable {t t' : State} {e : Option Event} {pos : Position} {base : List Frame} {m : Nat}

/-- An instruction of the block moves the activation to the next offset. -/
lemma Moves.running {b : Block} (moves : Moves p t e t') (here : t.pos = { pos with offset := m })
    (stack : t.stack = base) (found : blockAt? p pos = some b) (inside : m < b.code.length) :
    Activation pos base (m + 1) t' := by
  have behind : t.pos.next = { pos with offset := m + 1 } := by rw [here, Position.next]
  have same {b'} (found' : blockAt? p t.pos = some b') : b' = b := by
    rw [here] at found'
    exact Option.some.inj (found'.symm.trans found)
  cases moves with
  | next _ _ _ _ pos' stack' => exact .running (pos'.trans behind) (stack'.trans stack)
  | @call _ _ dest _ _ _ _ stack' =>
    have frame : ⟨t.env, t.pos.next, dest⟩ :: base <:+ t'.stack := by
      simp only [stack', stack, List.suffix_rfl]
    refine .suspended ?_ frame
    exact behind
  | branch found' last | ret found' last =>
    rw [same found', here] at last
    exact absurd last inside.ne

/-- Nothing moves a suspended activation but the return of its callee, which resumes it. -/
lemma Moves.suspended {frame : Frame} (moves : Moves p t e t')
    (ret : frame.ret = { pos with offset := m }) (suffix : frame :: base <:+ t.stack) :
    Activation pos base m t' := by
  cases moves with
  | next _ _ _ _ _ stack | branch _ _ _ stack => exact .suspended ret (stack ▸ suffix)
  | call _ _ _ stack =>
    apply Activation.suspended ret
    rw [stack]
    exact suffix.trans (List.suffix_cons _ _)
  | @ret _ g _ _ _ stack back =>
    rw [stack] at suffix
    rcases List.suffix_cons_iff.1 suffix with eq | below
    · cases eq
      exact .running (back.trans ret) rfl
    · exact .suspended ret below

end

/-- The item at the program counter, with its identifier. -/
def fetched? (p : Program) (s : Machine.State) : Option (InstrId × Item) :=
  match fetch p s.pc with
  | .ok (_, x) => some (s.pc.id, x)
  | .error _ => none

/-- What was executed from step `i` up to step `j` with `depth` suspended callers. -/
def executed (p : Program) (s : Nat → Machine.State) (depth i j : Nat) : List (InstrId × Item) :=
  (List.Ico i j).filterMap fun k => if (s k).stack.length = depth then fetched? p (s k) else none

/-- Nothing is executed in no steps. -/
lemma executed_self (depth i : Nat) : executed p s depth i i = [] := by
  simp [executed]

/-- One more step executes one more item, if it has the depth. -/
lemma executed_succ {depth i j : Nat} (le : i ≤ j) :
    executed p s depth i (j + 1) = executed p s depth i j ++
      (if (s j).stack.length = depth then fetched? p (s j) else none).toList := by
  rw [executed, List.Ico.succ_top le, List.filterMap_append]
  congr 1

/-- What is fetched by counter is the item at the position. -/
lemma Tracks.fetched? {s : Machine.State} {t : State} {b : Block} (wf : p.WellFormed)
    (tracks : Tracks p s t) (found : blockAt? p t.pos = some b) :
    fetched? p s = b.items[t.pos.offset]? := by
  obtain ⟨b', x, found', item, fetched⟩ := fetch_pc? wf tracks.pos
  obtain rfl := Option.some.inj (found'.symm.trans found)
  rw [Positional.fetched?, fetched, item]

variable {t : Nat → State} {i j : Nat}

/-- Both machines have equally many suspended callers. -/
lemma Lockstep.depth_eq (lock : Lockstep p n s t) (le : i ≤ n) :
    (s i).stack.length = (t i).stack.length :=
  (lock.tracks le).stack.length_eq

/-- A call goes on behind it, when the function that it called has returned. -/
lemma Lockstep.resumes (lock : Lockstep p n s t) (le : i ≤ j) (inside : j < n)
    (call : (Machine.step p (s i)).event? = some .call)
    (deep : ∀ k, i < k → k ≤ j → (s i).stack.length < (s k).stack.length)
    (back : (s (j + 1)).stack.length ≤ (s i).stack.length) : (t (j + 1)).pos = (t i).pos.next := by
  -- the caller stays suspended up to step `j`, since it runs with the stack that it called with
  have start : i < n := Nat.lt_of_le_of_lt le inside
  have caller {k} (ge : i ≤ k) (le : k ≤ j) :
      Activation (t i).pos (t i).stack ((t i).pos.offset + 1) (t (k + 1)) := by
    induction k, ge using Nat.le_induction with
    | base =>
      have moves := lock.moves start
      rw [call] at moves
      cases moves with
      | next _ _ quiet => exact absurd rfl quiet
      | call found lt pos stack => exact (Moves.call found lt pos stack).running rfl rfl found lt
    | succ k ge ih =>
      have lt : k + 1 < n := Nat.lt_of_le_of_lt le inside
      cases ih (Nat.le_of_succ_le le) with
      | running _ stack =>
        have above := deep (k + 1) (Nat.lt_succ_of_le ge) le
        rw [lock.depth_eq start.le, lock.depth_eq lt.le, stack] at above
        exact absurd above (Nat.lt_irrefl _)
      | suspended ret suffix => exact (lock.moves lt).suspended ret suffix
  cases caller le (Nat.le_refl j) with
  | running pos _ => exact pos
  | suspended _ suffix =>
    rw [lock.depth_eq start.le, lock.depth_eq inside] at back
    exact absurd (suffix.length_le.trans back) (Nat.not_succ_le_self _)

/-- At the offset behind the code the identifier is that of the terminator. -/
lemma Tracks.id_eq {s : Machine.State} {t : State} {pos : Position} {b : Block}
    (tracks : Tracks p s t) (found : blockAt? p pos = some b)
    (last : t.pos = { pos with offset := b.code.length }) : s.pc.id = b.term.1 := by
  obtain ⟨b', x, found', item, _, _⟩ := of_pc? tracks.pos
  rw [last] at found' item
  obtain rfl : b' = b := Option.some.inj (found'.symm.trans found)
  rw [items_last] at item
  rw [Option.some.inj item]

/-- A running activation executes the item at its offset. -/
lemma Lockstep.executes (wf : p.WellFormed) (lock : Lockstep p n s t) {b : Block} {m : Nat}
    (le : i ≤ j) (inside : j ≤ n) (found : blockAt? p (t i).pos = some b)
    (pos : (t j).pos = { (t i).pos with offset := m })
    (depth : (s j).stack.length = (s i).stack.length)
    (eq : executed p s (s i).stack.length i j = b.items.take m) :
    executed p s (s i).stack.length i (j + 1) = b.items.take (m + 1) := by
  have found' : blockAt? p (t j).pos = some b := by rwa [pos]
  have item : fetched? p (s j) = b.items[m]? := by
    rw [(lock.tracks inside).fetched? wf found', pos]
  rw [executed_succ le, if_pos depth, eq, item, List.take_add_one]

/-- With the terminator a running activation has executed all items. -/
lemma Lockstep.completes (wf : p.WellFormed) (lock : Lockstep p n s t) {b : Block} {m : Nat}
    (le : i ≤ j) (inside : j ≤ n) (found : blockAt? p (t i).pos = some b)
    (pos : (t j).pos = { (t i).pos with offset := m })
    (depth : (s j).stack.length = (s i).stack.length)
    (eq : executed p s (s i).stack.length i j = b.items.take m) (last : (s j).pc.id = b.term.1) :
    executed p s (s i).stack.length i (j + 1) = b.items := by
  have found' : blockAt? p (t j).pos = some b := by rwa [pos]
  have item : b.items[b.code.length]? = some ((s j).pc.id, b.term.2) := by rw [items_last, last]
  have offset : m = b.code.length := by
    have offset := offset_eq_of_id wf (lock.tracks inside).pos found' item
    rwa [pos] at offset
  have length : b.items.length = m + 1 := by rw [Block.items, List.length_append, offset]; rfl
  rw [lock.executes wf le inside found pos depth eq, ← length, List.take_length]

/-- As long as its terminator was not executed, an activation of a block has executed the items in
front of its offset. -/
lemma Lockstep.activation (wf : p.WellFormed) (lock : Lockstep p n s t) {b : Block} (le : i ≤ j)
    (inside : j ≤ n) (found : blockAt? p (t i).pos = some b) (first : (t i).pos.offset = 0)
    (stays : ∀ k, i ≤ k → k < j → (s k).stack.length = (s i).stack.length →
      (s k).pc.id ≠ b.term.1) :
    ∃ m ≤ b.code.length, executed p s (s i).stack.length i j = b.items.take m ∧
      Activation (t i).pos (t i).stack m (t j) := by
  induction j, le using Nat.le_induction with
  | base =>
    refine ⟨0, Nat.zero_le _, executed_self _ _, .running ?_ rfl⟩
    rw [← first]
  | succ j le ih =>
    have here : j ≤ n := Nat.le_of_succ_le inside
    obtain ⟨m, bound, eq, act⟩ := ih here fun k ge lt => stays k ge (Nat.lt_succ_of_lt lt)
    cases act with
    | running pos stack =>
      have depth : (s j).stack.length = (s i).stack.length := by
        rw [lock.depth_eq here, lock.depth_eq (le.trans here), stack]
      have lt : m < b.code.length := by
        apply Nat.lt_of_le_of_ne bound
        rintro rfl
        exact stays j le (Nat.lt_succ_self j) depth ((lock.tracks here).id_eq found pos)
      exact ⟨m + 1, lt, lock.executes wf le here found pos depth eq,
        (lock.moves inside).running pos stack found lt⟩
    | suspended ret suffix =>
      have deeper : (s i).stack.length < (s j).stack.length := by
        rw [lock.depth_eq here, lock.depth_eq (le.trans here)]
        exact suffix.length_le
      refine ⟨m, bound, ?_, (lock.moves inside).suspended ret suffix⟩
      rw [executed_succ le, if_neg (Nat.ne_of_gt deeper), Option.toList_none, List.append_nil, eq]

end

/-- Runs of verified programs go by position. The positional machine runs along with the block
machine and does the same in every step. Blocks are entered at offset 0, instructions go on at the
next offset, calls do when their function has returned, and only terminators leave a block. So what
an activation has executed of a block that it entered is at all times a prefix of the items of the
block, and with the terminator it is all of them. -/
theorem verified_runs_by_position {p : Program} {entry : Key} {args : List Value} {n : Nat}
    {s : Nat → Machine.State} (verified : p.verify = .ok ())
    (run : Machine.History p entry args n s) :
    ∃ t, History p entry args n t ∧ Lockstep p n s t ∧ (t 0).pos = ⟨entry, 0, 0⟩ ∧
      (∀ i j, i ≤ j → j < n → (Machine.step p (s i)).event? = some .call →
        (∀ k, i < k → k ≤ j → (s i).stack.length < (s k).stack.length) →
        (s (j + 1)).stack.length ≤ (s i).stack.length → (t (j + 1)).pos = (t i).pos.next) ∧
      ∀ i j b, i ≤ j → j ≤ n → p.block? (s i).pc.fn (s i).pc.block = some b →
        (s i).pc.id = b.firstId →
        (∀ k, i ≤ k → k < j → (s k).stack.length = (s i).stack.length →
          (s k).pc.id ≠ b.term.1) →
        ∃ m ≤ b.code.length, executed p s (s i).stack.length i j = b.items.take m ∧
          ((s j).stack.length = (s i).stack.length →
            (t j).pos = { (t i).pos with offset := m } ∧
            ((s j).pc.id = b.term.1 →
              executed p s (s i).stack.length i (j + 1) = b.items)) := by
  have wf := Program.verify_ok_iff.1 verified
  obtain ⟨t₀, start, tracks, pos⟩ := init_tracks wf run.start
  obtain ⟨t, rfl, lock, next⟩ := exists_lockstep wf run tracks
  refine ⟨t, ⟨start, next⟩, lock, pos, ?_, ?_⟩
  · intro i j le inside call deep back
    exact lock.resumes le inside call deep back
  · intro i j b le inside block first stays
    have here := (lock.tracks (le.trans inside)).pos
    have found := blockAt?_pc? wf here block
    obtain ⟨x, item⟩ := items_zero b
    rw [← first] at item
    have offset := offset_eq_of_id wf here found item
    obtain ⟨m, bound, eq, act⟩ := lock.activation wf le inside found offset stays
    refine ⟨m, bound, eq, fun depth => ?_⟩
    cases act with
    | suspended _ suffix =>
      rw [lock.depth_eq inside, lock.depth_eq (le.trans inside)] at depth
      exact absurd (depth ▸ suffix.length_le) (Nat.not_succ_le_self _)
    | running pos stack =>
      exact ⟨pos, fun last => lock.completes wf le inside found pos depth eq last⟩

/-- The body of a loop: it calls a function for the next value of a cell. -/
def decrementing : Block :=
  ⟨.anon 5,
    [(.result (.anon 7),
        .instr (.call .i64 (.global (.named "pred")) [(.i64, .register (.anon 3))])),
      (.void 2, .instr (.store .i64 (.register (.anon 7)) (.register (.anon 1))))],
    (.void 3, .term (.br (.anon 2)))⟩

/-- A loop that counts a cell down from 1, with a call in each round. -/
def countingLoop : Program :=
  ⟨[.define ⟨.named "main", ⟨.void, []⟩, [],
      [⟨.anon 0,
        [(.result (.anon 1), .instr (.alloca .i64)),
          (.void 0, .instr (.store .i64 (.int 1) (.register (.anon 1))))],
        (.void 1, .term (.br (.anon 2)))⟩,
        ⟨.anon 2,
          [(.result (.anon 3), .instr (.load .i64 (.register (.anon 1)))),
            (.result (.anon 4), .instr (.icmp .sgt .i64 (.register (.anon 3)) (.int 0)))],
          (.void 4, .term (.condBr (.register (.anon 4)) (.anon 5) (.anon 6)))⟩,
        decrementing,
        ⟨.anon 6, [], (.void 5, .term .retVoid)⟩]⟩,
    .define ⟨.named "pred", ⟨.i64, [.i64]⟩, [.named "n"],
      [⟨.anon 0,
        [(.result (.anon 1), .instr (.binop .sub .i64 (.register (.named "n")) (.int 1)))],
        (.void 0, .term (.ret .i64 (.register (.anon 1))))⟩]⟩]⟩

/-- The body of the loop is gone through to its end, and the call in it goes on at the next offset. -/
theorem countingLoop_by_position :
    countingLoop.verify = .ok () ∧
      ∃ s t, Machine.History countingLoop (.named "main") [] 14 s ∧
        History countingLoop (.named "main") [] 14 t ∧ Lockstep countingLoop 14 s t ∧
        (Machine.step countingLoop (s 6)).event? = some .call ∧ (t 9).pos = (t 6).pos.next ∧
        (s 6).pc.block = decrementing.label ∧
        executed countingLoop s 0 6 11 = decrementing.items := by
  let s₀ : Machine.State := ⟨⟨.named "main", .anon 0, .result (.anon 1)⟩, ∅, [], []⟩
  let s := stateAfter (fun s => (Machine.step countingLoop s).next?) s₀
  have verified : countingLoop.verify = .ok () := rfl
  have run : Machine.History countingLoop (.named "main") [] 14 s :=
    .of_stateAfter rfl (by decide +kernel)
  have call : (Machine.step countingLoop (s 6)).event? = some .call := by decide +kernel
  have deep : ∀ k, 6 < k → k ≤ 8 → (s 6).stack.length < (s k).stack.length := by
    have all : ∀ k < 9, 6 < k → (s 6).stack.length < (s k).stack.length := by decide +kernel
    exact fun k ge le => all k (Nat.lt_succ_of_le le) ge
  have stays : ∀ k, 6 ≤ k → k < 10 → (s k).stack.length = (s 6).stack.length →
      (s k).pc.id ≠ decrementing.term.1 := by
    have all : ∀ k < 10, 6 ≤ k → (s k).stack.length = (s 6).stack.length →
      (s k).pc.id ≠ decrementing.term.1 := by decide +kernel
    exact fun k ge lt => all k lt ge
  obtain ⟨t, run', lock, _, resumes, visits⟩ := verified_runs_by_position verified run
  obtain ⟨m, _, _, complete⟩ := visits 6 10 decrementing (by decide) (by decide) rfl rfl stays
  refine ⟨verified, s, t, run, run', lock, call, ?_, rfl, (complete rfl).2 rfl⟩
  exact resumes 6 8 (by decide) (by decide) call deep (by decide +kernel)

end ImpSSA.Positional
