import ImpSSA.Proofs.Machine.Provenance
import ImpSSA.Proofs.Machine.Steps

/-!
# Runs state by state

`History p entry args n s` says that `s 0`, …, `s n` are the states of a run that was started from
outside. What a step does to the stack and to memory depends on the access to memory of its item
(`access?`) and on its event, and `Exec.effect` says it once for all rules of execution. The lemmas
on histories, here and in the modules on cells and on calls, go by cases on `Effect`.
-/

namespace ImpSSA.Machine
open IR

/-- The states of a run of `entry` with `args`, up to the one after `n` steps. -/
structure History (p : Program) (entry : Key) (args : List Value) (n : Nat) (s : Nat → State) :
    Prop where
  start : init p entry args = .ok (s 0)
  next {i : Nat} : i < n → (step p (s i)).next? = some (s (i + 1))

/-- What an item does with memory. -/
inductive Access where
  | alloca
  | load (a : Int)
  | store (a : Int) (v : Value)

/-- The access to memory of the item at the program counter, its operands evaluated. -/
def access? (p : Program) (s : State) : Option Access :=
  match fetch p s.pc with
  | .ok (_, .instr (.alloca _)) => some .alloca
  | .ok (_, .instr (.load _ ptr)) =>
    match operand p s.env ptr with
    | .ok (.addr a) => some (.load a)
    | _ => none
  | .ok (_, .instr (.store _ value ptr)) =>
    match operand p s.env value, operand p s.env ptr with
    | .ok v, .ok (.addr a) => some (.store a v)
    | _, _ => none
  | _ => none

/-- The value that the return at the program counter passes on. -/
def returned? (p : Program) (s : State) : Option Value :=
  match fetch p s.pc with
  | .ok (_, .term (.ret _ v)) => (operand p s.env v).toOption
  | _ => none

/-- The event of an internal step. -/
def Outcome.event? : Outcome → Option Event
  | .stepped _ e => some e
  | .external .. | .terminated .. | .faulted _ | .crashed _ => none

/-- The place after an instruction. -/
def Pc.next? (p : Program) (pc : Pc) : Option Pc :=
  (p.block? pc.fn pc.block).bind fun b => (b.nextId? pc.id).map fun i => { pc with id := i }

/-- The registers of a caller that goes on after a return with `v`. -/
def Frame.resume (f : Frame) (v : Option Value) : Option Env :=
  match f.dest, v with
  | none, _ => some f.env
  | some k, some v => some (f.env.insert k v)
  | some _, none => none

/-- What a step does to the stack and to memory. -/
inductive Effect (p : Program) (s : State) : Option Access → Option Event → State → Prop where
  | alloca {pc env} :
    Effect p s (some .alloca) (some .step)
      { s with pc, env, memory := s.memory ++ [⟨.undef, s.stack.length, true⟩] }
  | load {pc cell} {a : Nat} :
    s.memory[a]? = some cell →
    cell.live = true →
    Effect p s (some (.load a)) (some .step)
      { s with pc, env := Env.result s.env s.pc.id cell.value }
  | store {pc cell v} {a : Nat} :
    s.memory[a]? = some cell →
    cell.live = true →
    Effect p s (some (.store a v)) (some .step)
      { s with pc, memory := s.memory.set a { cell with value := v } }
  | other {e pc env} :
    e ≠ some .call →
    e ≠ some .ret →
    Effect p s none e { s with pc, env }
  | call {pc env next} :
    s.pc.next? p = some next →
    Effect p s none (some .call)
      ⟨pc, env, ⟨s.env, next, s.pc.id.register?⟩ :: s.stack, s.memory⟩
  | ret {frame stack env} :
    s.stack = frame :: stack →
    frame.resume (returned? p s) = some env →
    Effect p s none (some .ret)
      ⟨frame.ret, env, stack, s.memory.map (Cell.release s.stack.length)⟩

/-- The effect of an instruction on memory and stack. -/
lemma InstrExec.effect {p s b i next o s'} (fetched : fetch p s.pc = .ok (b, .instr i))
    (succ : b.nextId? s.pc.id = some next) (rule : InstrExec p s { s.pc with id := next } i o)
    (goes : o.next? = some s') : Effect p s (access? p s) o.event? s' := by
  cases rule with
  | binop | icmp | external =>
    cases goes
    have quiet : access? p s = none := by rw [access?, fetched]
    rw [quiet]
    exact .other nofun nofun
  | alloca =>
    cases goes
    have access : access? p s = some .alloca := by rw [access?, fetched]
    rw [access]
    exact .alloca
  | @load _ _ _ a _ hv hd =>
    cases goes
    obtain ⟨rfl, found, live⟩ := of_deref hd
    have access : access? p s = some (.load a) := by
      rw [access?, fetched]
      simp only [hv]
    rw [access]
    exact .load found live
  | @store _ _ _ u _ a _ hu hv hd =>
    cases goes
    obtain ⟨rfl, found, live⟩ := of_deref hd
    have access : access? p s = some (.store a u) := by
      rw [access?, fetched]
      simp only [hu, hv]
    rw [access]
    exact .store found live
  | call =>
    cases goes
    have quiet : access? p s = none := by rw [access?, fetched]
    rw [quiet]
    apply Effect.call
    obtain ⟨block, _⟩ := block?_of_fetch fetched
    rw [Pc.next?, block, Option.bind_some, succ, Option.map_some]

/-- The effect of a return on memory and stack. -/
lemma ReturnExec.effect {p s o s'} (rule : ReturnExec s (returned? p s) o)
    (goes : o.next? = some s') : Effect p s none o.event? s' := by
  cases rule with
  | outermost => cases goes
  | discard stack dest =>
    cases goes
    apply Effect.ret stack
    simp only [Frame.resume, dest]
  | bind stack dest value =>
    cases goes
    apply Effect.ret stack
    simp only [Frame.resume, dest, value]

/-- What a rule does to the stack and to memory. -/
lemma Exec.effect {p s o s'} (rule : Exec p s o) (goes : o.next? = some s') :
    Effect p s (access? p s) o.event? s' := by
  cases rule with
  | instr fetched succ rule => exact rule.effect fetched succ goes
  | term fetched rule =>
    have quiet : access? p s = none := by rw [access?, fetched]
    rw [quiet]
    cases rule with
    | br | condBr =>
      cases goes
      exact .other nofun nofun
    | retVoid rule =>
      have value : returned? p s = none := by rw [returned?, fetched]
      rw [← value] at rule
      exact rule.effect goes
    | @ret _ _ w _ hv rule =>
      have value : returned? p s = some w := by
        rw [returned?, fetched]
        simp only [hv]
        rfl
      rw [← value] at rule
      exact rule.effect goes

/-- A step changes the depth of the stack by its event. -/
lemma Effect.depth {p s acc e s'} (eff : Effect p s acc e s') :
    s'.stack.length + (if e = some .ret then 1 else 0) =
      s.stack.length + (if e = some .call then 1 else 0) := by
  cases eff with
  | alloca | load | store => rfl
  | other call ret => rw [if_neg call, if_neg ret]
  | call => rfl
  | ret stack =>
    rw [stack]
    rfl

section
variable {p : Program} {entry : Key} {args : List Value} {n : Nat} {s : Nat → State}

/-- A run that goes on for `n` steps has a history. -/
lemma History.of_stateAfter {s₀} (start : init p entry args = .ok s₀)
    (goes : ∀ i < n, (step p (stateAfter (fun s => (step p s).next?) s₀ i)).next?.isSome = true) :
    History p entry args n (stateAfter (fun s => (step p s).next?) s₀) := by
  refine ⟨start, ?_⟩
  intro i lt
  obtain ⟨s', next⟩ := Option.isSome_iff_exists.1 (goes i lt)
  rw [next, stateAfter_succ next]

/-- Every step of a run has its effect. -/
lemma History.effect {i} (run : History p entry args n s) (lt : i < n) :
    Effect p (s i) (access? p (s i)) (step p (s i)).event? (s (i + 1)) :=
  (exec_of_next? (run.next lt)).effect (run.next lt)

/-- What holds at the start and is kept by steps holds all along. -/
lemma History.preserves {I : State → Prop} (run : History p entry args n s)
    (start : ∀ s₀, init p entry args = .ok s₀ → I s₀)
    (kept : ∀ {s acc e s'}, I s → Effect p s acc e s' → I s') {i : Nat} (le : i ≤ n) : I (s i) := by
  induction i with
  | zero => exact start _ run.start
  | succ i ih =>
    have before := ih (Nat.le_of_succ_le le)
    exact kept before (run.effect le)

end

end ImpSSA.Machine
