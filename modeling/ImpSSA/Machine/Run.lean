import ImpSSA.Machine.Step

/-!
# Runs of the machine

A run starts at a definition of the program and steps until the program returns, faults or crashes,
or until its fuel is spent. It keeps the external calls in order.
-/

namespace ImpSSA.Machine

open IR

/-- Why a run cannot start. -/
inductive EntryError where
  | notFound (entry : Key)
  | arity (entry : Key) (params args : Nat)
  | noBlocks (entry : Key)
  deriving DecidableEq, Repr

/-- What is reported of an error. -/
def EntryError.message : EntryError → String
  | .notFound entry => "entry point @" ++ entry.text ++ " not found"
  | .arity entry params args =>
    "entry point @" ++ entry.text ++ " expects " ++ toString params ++ " args, got " ++ toString args
  | .noBlocks entry => "entry point @" ++ entry.text ++ " has no blocks"

/-- The state in which a call of `entry` from outside starts. -/
def init (p : Program) (entry : Key) (args : List Value) : Except EntryError State :=
  match p.definition? entry with
  | none => throw (.notFound entry)
  | some d =>
    if d.params.length = args.length then
      match startOf d with
      | some pc => pure ⟨pc, Table.ofList (d.params.zip args), [], []⟩
      | none => throw (.noBlocks entry)
    else
      throw (.arity entry d.params.length args.length)

/-- The outcomes of at most `n` steps. -/
def trace (p : Program) : (n : Nat) → State → List Outcome
  | 0, _ => []
  | n + 1, s =>
    let o := step p s
    o :: match o.next? with
      | some s => trace p n s
      | none => []

/-- How a run ends. -/
inductive Result where
  | finished (memory : List Value) (v : Option Value)
  | failed (f : Fault)
  | crashed (c : Crash)
  | outOfFuel

/-- A run: its end, the number of its steps and the external calls. -/
structure Run where
  result : Result
  steps : Nat
  calls : List (Key × List Value)

/-- Runs from `s` for at most `fuel` steps, after `steps` earlier ones with the external `calls`. -/
def runFrom (p : Program) (fuel steps : Nat) (calls : Array (Key × List Value)) (s : State) : Run :=
  match fuel with
  | 0 => ⟨.outOfFuel, steps, calls.toList⟩
  | fuel + 1 =>
    match step p s with
    | .stepped s _ => runFrom p fuel (steps + 1) calls s
    | .external s name args => runFrom p fuel (steps + 1) (calls.push (name, args)) s
    | .terminated memory v => ⟨.finished memory v, steps + 1, calls.toList⟩
    | .faulted f => ⟨.failed f, steps + 1, calls.toList⟩
    | .crashed c => ⟨.crashed c, steps + 1, calls.toList⟩

/-- Runs `entry` for at most `fuel` steps; without fuel the run does not start. -/
def run (p : Program) (entry : Key) (fuel : Int) : Except EntryError Run :=
  if fuel ≤ 0 then pure ⟨.outOfFuel, 0, []⟩
  else do
    let s ← init p entry []
    pure (runFrom p fuel.toNat 0 #[] s)

end ImpSSA.Machine
