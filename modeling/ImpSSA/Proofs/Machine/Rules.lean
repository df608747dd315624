import ImpSSA.Machine.Step
import ImpSSA.Proofs.Control

/-!
# The rules of execution

What a step can do, as rules: `InstrExec` has one for each instruction, and two for calls, and
`TermExec` one for each way a terminator leaves its block. `Exec` joins them with the item that is
fetched. `exec_ok_iff` says that the machine follows exactly these rules, so that proofs about runs
go by cases on a rule, or apply one.
-/

namespace ImpSSA.Machine
open IR

/-- What an instruction that goes on at `next` leads to. -/
inductive InstrExec (p : Program) (s : State) (next : Pc) : Instr → Outcome → Prop where
  | binop {op ty l r u v w} :
    operand p s.env l = .ok u →
    operand p s.env r = .ok v →
    binary op ty u v = .ok w →
    InstrExec p s next (.binop op ty l r)
      (.stepped { s with pc := next, env := Env.result s.env s.pc.id w } .step)
  | icmp {c ty l r u v w} :
    operand p s.env l = .ok u →
    operand p s.env r = .ok v →
    comparison c u v = .ok w →
    InstrExec p s next (.icmp c ty l r)
      (.stepped { s with pc := next, env := Env.result s.env s.pc.id w } .step)
  | alloca {ty} :
    InstrExec p s next (.alloca ty)
      (.stepped { s with
        pc := next
        env := Env.result s.env s.pc.id (.addr s.memory.length)
        memory := s.memory ++ [⟨.undef, s.stack.length, true⟩] } .step)
  | load {ty ptr v n cell} :
    operand p s.env ptr = .ok v →
    deref s.memory v = .ok (n, cell) →
    InstrExec p s next (.load ty ptr)
      (.stepped { s with pc := next, env := Env.result s.env s.pc.id cell.value } .step)
  | store {ty value ptr u v n cell} :
    operand p s.env value = .ok u →
    operand p s.env ptr = .ok v →
    deref s.memory v = .ok (n, cell) →
    InstrExec p s next (.store ty value ptr)
      (.stepped { s with pc := next, memory := s.memory.set n { cell with value := u } } .step)
  | call {ty f args fn vs d pc} :
    callee p s.env f = .ok fn →
    args.mapM (fun (_, v) => operand p s.env v) = .ok vs →
    p.definition? fn = some d →
    d.params.length = vs.length →
    startOf d = some pc →
    InstrExec p s next (.call ty f args)
      (.stepped ⟨pc, Table.ofList (d.params.zip vs), ⟨s.env, next, s.pc.id.register?⟩ :: s.stack,
        s.memory⟩ .call)
  | external {ty f args fn vs} :
    callee p s.env f = .ok fn →
    args.mapM (fun (_, v) => operand p s.env v) = .ok vs →
    p.definition? fn = none →
    p.declares fn = true →
    InstrExec p s next (.call ty f args)
      (.external { s with pc := next, env := Env.result s.env s.pc.id .undef } fn vs)

/-- What a return with `v` leads to. -/
inductive ReturnExec (s : State) (v : Option Value) : Outcome → Prop where
  | outermost :
    s.stack = [] →
    ReturnExec s v (.terminated s.snapshot v)
  | discard {frame stack} :
    s.stack = frame :: stack →
    frame.dest = none →
    ReturnExec s v
      (.stepped ⟨frame.ret, frame.env, stack, s.memory.map (Cell.release s.stack.length)⟩ .ret)
  | bind {frame stack k w} :
    s.stack = frame :: stack →
    frame.dest = some k →
    v = some w →
    ReturnExec s v
      (.stepped ⟨frame.ret, frame.env.insert k w, stack,
        s.memory.map (Cell.release s.stack.length)⟩ .ret)

/-- What a terminator leads to. -/
inductive TermExec (p : Program) (s : State) : Term → Outcome → Prop where
  | br {target pc} :
    enter p s.pc.fn target = .ok pc →
    TermExec p s (.br target) (.stepped { s with pc } .step)
  | condBr {c t e b pc} :
    operand p s.env c = .ok (.bool b) →
    enter p s.pc.fn (if b then t else e) = .ok pc →
    TermExec p s (.condBr c t e) (.stepped { s with pc } .step)
  | retVoid {o} :
    ReturnExec s none o →
    TermExec p s .retVoid o
  | ret {ty v w o} :
    operand p s.env v = .ok w →
    ReturnExec s (some w) o →
    TermExec p s (.ret ty v) o

/-- What the item at the program counter leads to. -/
inductive Exec (p : Program) (s : State) : Outcome → Prop where
  | instr {b i next o} :
    fetch p s.pc = .ok (b, .instr i) →
    b.nextId? s.pc.id = some next →
    InstrExec p s { s.pc with id := next } i o →
    Exec p s o
  | term {b t o} :
    fetch p s.pc = .ok (b, .term t) →
    TermExec p s t o →
    Exec p s o

/-- A part of a step has the result that it has alone. -/
lemma faulty_eq_ok {α : Type} {r : Except Fault α} {a : α} : faulty r = .ok a ↔ r = .ok a :=
  mapError_eq_ok

/-- A part of a step stops with the fault that it has alone. -/
lemma faulty_eq_error {α : Type} {r : Except Fault α} {e : Stop} :
    faulty r = .error e ↔ ∃ f, r = .error f ∧ e = .fault f := by
  cases r <;> simp [faulty, eq_comm]

/-- An item is fetched from the block of the counter. -/
lemma block?_of_fetch {p pc b item} (h : fetch p pc = .ok (b, item)) :
    p.block? pc.fn pc.block = some b ∧ b.item? pc.id = some item := by
  unfold fetch at h
  split at h
  · cases h
  · rename_i found
    split at h
    · rename_i item found'
      cases h
      exact ⟨found, found'⟩
    · cases h

/-- What is dereferenced is the address of a live cell. -/
lemma of_deref {memory v n cell} (h : deref memory v = .ok (n, cell)) :
    v = .addr n ∧ memory[n]? = some cell ∧ cell.live = true := by
  unfold deref at h
  split at h
  · split at h
    · cases h
    · rename_i a nonneg
      split at h
      · cases h
      · rename_i found
        split at h
        · rename_i live
          cases h
          exact ⟨by rw [Int.toNat_of_nonneg (Int.not_lt.1 nonneg)], found, live⟩
        · cases h
  · cases h

/-- The rules of calls are complete. -/
lemma execCall_ok_iff {p s next ty f args o} :
    execCall p s next f args = .ok o ↔ InstrExec p s next (.call ty f args) o := by
  simp only [execCall, bind_eq_ok, faulty_eq_ok]
  constructor
  · rintro ⟨fn, hf, vs, hvs, h⟩
    split at h
    · rename_i d hd
      split at h
      · rename_i len
        split at h
        · rename_i pc hpc
          cases h
          exact .call hf hvs hd len hpc
        · cases h
      · cases h
    · rename_i hd
      split at h
      · rename_i decl
        cases h
        exact .external hf hvs hd decl
      · cases h
  · intro h
    cases h with
    | call hf hvs hd len hpc => exact ⟨_, hf, _, hvs, by simp [hd, len, hpc, pure, Except.pure]⟩
    | external hf hvs hd decl => exact ⟨_, hf, _, hvs, by simp [hd, decl, pure, Except.pure]⟩

/-- Instructions follow the rules. -/
lemma execInstr_ok_iff {p s next i o} :
    execInstr p s next i = .ok o ↔ InstrExec p s next i o := by
  cases i with
  | binop op ty l r =>
    simp only [execInstr, bind_eq_ok, faulty_eq_ok]
    constructor
    · rintro ⟨u, hu, v, hv, w, hw, ⟨⟩⟩
      exact .binop hu hv hw
    · intro h
      cases h with
      | binop hu hv hw => exact ⟨_, hu, _, hv, _, hw, rfl⟩
  | icmp c ty l r =>
    simp only [execInstr, bind_eq_ok, faulty_eq_ok]
    constructor
    · rintro ⟨u, hu, v, hv, w, hw, ⟨⟩⟩
      exact .icmp hu hv hw
    · intro h
      cases h with
      | icmp hu hv hw => exact ⟨_, hu, _, hv, _, hw, rfl⟩
  | alloca ty =>
    constructor
    · rintro ⟨⟩
      exact .alloca
    · rintro ⟨⟩
      rfl
  | load ty ptr =>
    simp only [execInstr, bind_eq_ok, faulty_eq_ok]
    constructor
    · rintro ⟨v, hv, ⟨n, cell⟩, hd, ⟨⟩⟩
      exact .load hv hd
    · intro h
      cases h with
      | load hv hd => exact ⟨_, hv, _, hd, rfl⟩
  | store ty value ptr =>
    simp only [execInstr, bind_eq_ok, faulty_eq_ok]
    constructor
    · rintro ⟨u, hu, v, hv, ⟨n, cell⟩, hd, ⟨⟩⟩
      exact .store hu hv hd
    · intro h
      cases h with
      | store hu hv hd => exact ⟨_, hu, _, hv, _, hd, rfl⟩
  | call ty f args => exact execCall_ok_iff
  | foreign =>
    constructor
    · rintro ⟨⟩
    · rintro ⟨⟩

/-- The rules of returns are complete. -/
lemma execReturn_ok_iff {s v o} : execReturn s v = .ok o ↔ ReturnExec s v o := by
  constructor
  · intro h
    unfold execReturn at h
    split at h
    · rename_i stack
      cases h
      exact .outermost stack
    · rename_i frame stack eq
      split at h
      · rename_i dest
        cases h
        exact .discard eq dest
      · rename_i dest
        cases h
        exact .bind eq dest rfl
      · cases h
  · intro h
    cases h with
    | outermost stack => simp [execReturn, stack, pure, Except.pure]
    | discard stack dest => simp [execReturn, stack, dest, pure, Except.pure]
    | bind stack dest value => simp [execReturn, stack, dest, value, pure, Except.pure]

/-- The rules of terminators are complete. -/
lemma execTerm_ok_iff {p s t o} : execTerm p s t = .ok o ↔ TermExec p s t o := by
  cases t with
  | br target =>
    simp only [execTerm, bind_eq_ok]
    constructor
    · rintro ⟨pc, hpc, ⟨⟩⟩
      exact .br hpc
    · intro h
      cases h with
      | br hpc => exact ⟨_, hpc, rfl⟩
  | condBr c t e =>
    simp only [execTerm, bind_eq_ok]
    constructor
    · rintro ⟨v, hv, h⟩
      split at h
      · obtain ⟨pc, hpc, ⟨⟩⟩ := bind_eq_ok.1 h
        exact .condBr hv hpc
      · cases h
    · intro h
      cases h with
      | condBr hv hpc => exact ⟨_, hv, bind_eq_ok.2 ⟨_, hpc, rfl⟩⟩
  | retVoid =>
    rw [execTerm, execReturn_ok_iff]
    exact ⟨.retVoid, fun (.retVoid h) => h⟩
  | ret ty v =>
    simp only [execTerm, bind_eq_ok, execReturn_ok_iff]
    exact ⟨fun ⟨_, hv, h⟩ => .ret hv h, fun (.ret hv h) => ⟨_, hv, h⟩⟩
  | foreign =>
    constructor
    · rintro ⟨⟩
    · rintro ⟨⟩

/-- The machine follows the rules. -/
lemma exec_ok_iff {p s o} : exec p s = .ok o ↔ Exec p s o := by
  simp only [exec, bind_eq_ok, faulty_eq_ok]
  constructor
  · rintro ⟨⟨b, item⟩, hf, h⟩
    cases item with
    | term t => exact .term hf (execTerm_ok_iff.1 (faulty_eq_ok.1 h))
    | instr i =>
      simp only at h
      split at h
      · rename_i next hn
        exact .instr hf hn (execInstr_ok_iff.1 h)
      · cases h
  · intro h
    cases h with
    | instr hf hn h => exact ⟨_, hf, by simpa [hn] using execInstr_ok_iff.2 h⟩
    | term hf h => exact ⟨_, hf, faulty_eq_ok.2 (execTerm_ok_iff.2 h)⟩

/-- A rule that applies is what the step does. -/
lemma Exec.step_eq {p s o} (h : Exec p s o) : step p s = o := by
  rw [step, exec_ok_iff.2 h]

/-- The rules say nothing of faults and crashes. -/
lemma Exec.not_failed {p s o} (h : Exec p s o) : (∀ f, o ≠ .faulted f) ∧ ∀ c, o ≠ .crashed c := by
  have returns : ∀ {v o}, ReturnExec s v o → (∀ f, o ≠ .faulted f) ∧ ∀ c, o ≠ .crashed c := by
    intro v o h
    cases h <;> exact ⟨fun _ eq => (nomatch eq), fun _ eq => (nomatch eq)⟩
  cases h with
  | instr _ _ h => cases h <;> exact ⟨fun _ eq => (nomatch eq), fun _ eq => (nomatch eq)⟩
  | term _ h =>
    cases h with
    | br | condBr => exact ⟨fun _ eq => (nomatch eq), fun _ eq => (nomatch eq)⟩
    | retVoid h => exact returns h
    | ret _ h => exact returns h

/-- A step that neither faults nor crashes follows a rule. -/
lemma Exec.of_step {p s o} (h : step p s = o)
    (fine : (∀ f, o ≠ .faulted f) ∧ ∀ c, o ≠ .crashed c) : Exec p s o := by
  apply exec_ok_iff.1
  unfold step at h
  split at h
  · rename_i o' eq
    rw [eq, h]
  · exact absurd h.symm (fine.1 _)
  · exact absurd h.symm (fine.2 _)

/-- A step that the run goes on after follows a rule. -/
lemma exec_of_next? {p s s'} (h : (step p s).next? = some s') :
    Exec p s (step p s) := by
  apply Exec.of_step rfl
  constructor
  · intro f eq
    rw [eq] at h
    cases h
  · intro c eq
    rw [eq] at h
    cases h

/-- A step that faults stops with a fault. -/
lemma exec_of_faulted {p s f} (h : step p s = .faulted f) : exec p s = .error (.fault f) := by
  unfold step at h
  split at h
  · rename_i o eq
    exact absurd h ((exec_ok_iff.1 eq).not_failed.1 f)
  · rename_i eq
    cases h
    exact eq
  · cases h

/-- A step that crashes stops with a crash. -/
lemma exec_of_crashed {p s c} (h : step p s = .crashed c) : exec p s = .error (.crash c) := by
  unfold step at h
  split at h
  · rename_i o eq
    exact absurd h ((exec_ok_iff.1 eq).not_failed.2 c)
  · cases h
  · rename_i eq
    cases h
    exact eq

end ImpSSA.Machine
