import ImpSSA.Word
import ImpSSA.Node.Describe

/-!
# Evaluation of IMP

Arithmetic wraps to 64-bit words at every node, and both sides of a conjunction are evaluated. A
command runs as a stack of pending commands; taking one off the stack is one step, and `Node.run`
takes at most `fuel` of them.
-/

namespace ImpSSA.Node

/-- The value of an arithmetic expression. -/
def arithValue (σ : Store) : Node → Except Misplaced Int
  | .num n => pure (wrap64 n)
  | .var x => pure (σ.value x)
  | .arith op l r => do
    let m ← l.arithValue σ
    let n ← r.arithValue σ
    pure (wrap64 (op.apply m n))
  | n => throw (.notArith n)

/-- The value of a boolean expression. -/
def boolValue (σ : Store) : Node → Except Misplaced Bool
  | .bool b => pure b
  | .cmp op l r => do
    let m ← l.arithValue σ
    let n ← r.arithValue σ
    pure (op.apply m n)
  | .not b => do
    let v ← b.boolValue σ
    pure (!v)
  | .and l r => do
    let v ← l.boolValue σ
    let w ← r.boolValue σ
    pure (v && w)
  | n => throw (.notBool n)

/-- One step of a command in front of the pending commands `k`: what is then pending, and the store. -/
def step (σ : Store) (k : List Node) : Node → Except Misplaced (List Node × Store)
  | .skip => pure (k, σ)
  | .assign x e => do
    let n ← e.arithValue σ
    pure (k, σ.insert x n)
  | .seq c d => pure (c :: d :: k, σ)
  | .cond b c d => do
    let v ← b.boolValue σ
    pure ((if v then c else d) :: k, σ)
  | .loop b c => do
    let v ← b.boolValue σ
    pure (if v then c :: .loop b c :: k else k, σ)
  | n => throw (.notCommand n)

/-- How a bounded run of a command ends. -/
inductive Outcome where
  | final (σ : Store) (steps : Nat)
  | diverged (steps : Nat)

/-- Runs the pending commands for at most `fuel` steps, after `steps` earlier ones. -/
def runPending (fuel steps : Nat) (k : List Node) (σ : Store) : Except Misplaced Outcome :=
  match k, fuel with
  | [], _ => pure (.final σ steps)
  | _ :: _, 0 => pure (.diverged steps)
  | c :: k, fuel + 1 => do
    let (k', σ') ← c.step σ k
    runPending fuel (steps + 1) k' σ'

/-- Runs a command for at most `fuel` steps; without fuel it does not start. -/
def run (c : Node) (fuel : Int) (σ : Store) : Except Misplaced Outcome :=
  runPending fuel.toNat 0 [c] σ

end ImpSSA.Node
