import ImpSSA.Machine.Operand

/-!
# One step of the machine

`step` executes the item at the program counter. Terminators are executed as such wherever they
stand. An instruction goes on with the item after it, which is determined before it is executed.
-/

namespace ImpSSA.IR

/-- The item of a block that `i` identifies; the terminator comes first, then the last in the code. -/
def Block.item? (b : Block) (i : InstrId) : Option Item :=
  if i = b.term.1 then some b.term.2
  else ((indexOfLast i b.code).bind (b.code[·]?)).map (·.2)

/-- What comes after the item of the code that `i` identifies. -/
def Block.nextId? (b : Block) (i : InstrId) : Option InstrId :=
  (indexOfLast i b.code).map fun n =>
    match b.code[n + 1]? with
    | some (j, _) => j
    | none => b.term.1

/-- The block of a function in a program. -/
def Program.block? (p : Program) (fn label : Key) : Option Block :=
  (p.definition? fn).bind (·.block? label)

end ImpSSA.IR

namespace ImpSSA.Machine

open IR

/-- Where a definition starts: at the label of its first block. -/
def startOf (d : Definition) : Option Pc :=
  match d.blocks with
  | [] => none
  | b :: _ => some ⟨d.name, b.label, ((d.block? b.label).getD b).firstId⟩

/-- Where a block starts. -/
def enter (p : Program) (fn label : Key) : Except Fault Pc :=
  match p.block? fn label with
  | some b => pure ⟨fn, label, b.firstId⟩
  | none => throw (.unknownBlock fn label)

/-- The block of the program counter and the item it is at. -/
def fetch (p : Program) (pc : Pc) : Except Fault (Block × Item) :=
  match p.block? pc.fn pc.block with
  | none => throw (.unknownBlock pc.fn pc.block)
  | some b =>
    match b.item? pc.id with
    | some item => pure (b, item)
    | none => throw (.invalidCounter pc.id pc.block)

/-- A step that may fault, as one that may also crash. -/
def faulty {α : Type} (r : Except Fault α) : Except Stop α := r.mapError .fault

/-- The registers after the item `i` with value `v`. -/
def Env.result (env : Env) (i : InstrId) (v : Value) : Env :=
  match i with
  | .result k => env.insert k v
  | .void _ => env

/-- The function that the operand of a call stands for. -/
def callee (p : Program) (env : Env) (f : Value) : Except Fault Key :=
  match f with
  | .global k => pure k
  | f => do
    match ← operand p env f with
    | .fnPtr k => pure k
    | v => throw (.nonFunction v)

/-- Calls a function and goes on at `next`. -/
def execCall (p : Program) (s : State) (next : Pc) (f : Value) (args : List (Ty × Value)) :
    Except Stop Outcome := do
  let fn ← faulty (callee p s.env f)
  let vs ← faulty (args.mapM fun (_, v) => operand p s.env v)
  match p.definition? fn with
  | some d =>
    if d.params.length = vs.length then
      match startOf d with
      | some pc =>
        let frame : Frame := ⟨s.env, next, s.pc.id.register?⟩
        pure (.stepped ⟨pc, Table.ofList (d.params.zip vs), frame :: s.stack, s.memory⟩ .call)
      | none => throw (.crash .noEntryBlock)
    else
      throw (.fault (.arity fn d.params.length vs.length))
  | none =>
    if p.declares fn then
      pure (.external { s with pc := next, env := Env.result s.env s.pc.id .undef } fn vs)
    else
      throw (.fault (.unknownFunction fn))

/-- Executes an instruction and goes on at `next`. -/
def execInstr (p : Program) (s : State) (next : Pc) (i : Instr) : Except Stop Outcome :=
  match i with
  | .binop op ty l r => do
    let u ← faulty (operand p s.env l)
    let v ← faulty (operand p s.env r)
    let w ← faulty (binary op ty u v)
    pure (.stepped { s with pc := next, env := Env.result s.env s.pc.id w } .step)
  | .icmp c _ l r => do
    let u ← faulty (operand p s.env l)
    let v ← faulty (operand p s.env r)
    let w ← faulty (comparison c u v)
    pure (.stepped { s with pc := next, env := Env.result s.env s.pc.id w } .step)
  | .alloca _ =>
    let env := Env.result s.env s.pc.id (.addr s.memory.length)
    let memory := s.memory ++ [⟨.undef, s.stack.length, true⟩]
    pure (.stepped { s with pc := next, env, memory } .step)
  | .load _ ptr => do
    let v ← faulty (operand p s.env ptr)
    let (_, cell) ← faulty (deref s.memory v)
    pure (.stepped { s with pc := next, env := Env.result s.env s.pc.id cell.value } .step)
  | .store _ value ptr => do
    let u ← faulty (operand p s.env value)
    let v ← faulty (operand p s.env ptr)
    let (n, cell) ← faulty (deref s.memory v)
    let memory := s.memory.set n { cell with value := u }
    pure (.stepped { s with pc := next, memory } .step)
  | .call _ f args => execCall p s next f args
  | .foreign => throw (.fault (.unsupportedInstr i))

/-- A cell after the return of the function at `depth`. -/
def Cell.release (depth : Nat) (c : Cell) : Cell :=
  if c.live && c.depth = depth then { c with live := false } else c

/-- Returns from the running function. -/
def execReturn (s : State) (v : Option Value) : Except Fault Outcome :=
  match s.stack with
  | [] => pure (.terminated s.snapshot v)
  | frame :: stack =>
    let memory := s.memory.map (Cell.release s.stack.length)
    match frame.dest, v with
    | none, _ => pure (.stepped ⟨frame.ret, frame.env, stack, memory⟩ .ret)
    | some k, some v => pure (.stepped ⟨frame.ret, frame.env.insert k v, stack, memory⟩ .ret)
    | some k, none => throw (.voidResult k)

/-- Executes a terminator. -/
def execTerm (p : Program) (s : State) (t : Term) : Except Fault Outcome :=
  match t with
  | .br target => do
    let pc ← enter p s.pc.fn target
    pure (.stepped { s with pc } .step)
  | .condBr c t e => do
    match ← operand p s.env c with
    | .bool b => do
      let pc ← enter p s.pc.fn (if b then t else e)
      pure (.stepped { s with pc } .step)
    | v => throw (.nonBoolean v)
  | .retVoid => execReturn s none
  | .ret _ v => do
    let v ← operand p s.env v
    execReturn s (some v)
  | .foreign => throw (.unsupportedTerm t)

/-- Executes the item at the program counter. -/
def exec (p : Program) (s : State) : Except Stop Outcome := do
  match ← faulty (fetch p s.pc) with
  | (_, .term t) => faulty (execTerm p s t)
  | (b, .instr i) =>
    match b.nextId? s.pc.id with
    | some next => execInstr p s { s.pc with id := next } i
    | none => throw (.crash (.noSuccessor s.pc.id))

/-- One step. -/
def step (p : Program) (s : State) : Outcome :=
  match exec p s with
  | .ok o => o
  | .error (.fault f) => .faulted f
  | .error (.crash c) => .crashed c

end ImpSSA.Machine
