import ImpSSA.Word
import ImpSSA.Machine.State

/-!
# Operands and arithmetic

An operand is an atom or one operator over atoms. Integers are computed without bound and wrapped to
the width of the type; comparisons do not wrap. Every allocation is a single cell, so an element
address is its base or out of bounds.
-/

namespace ImpSSA.Machine

open IR

/-- The width that results of a type are wrapped to. -/
def width : Ty → Nat
  | .int bits => if 1 < bits then bits.toNat else 64
  | _ => 64

/-- The quotient rounded towards zero: that of the absolute values, negated if the signs differ. -/
def quotient (a b : Int) : Int :=
  let q := Int.ofNat (a.natAbs / b.natAbs)
  if decide (a < 0) = decide (b < 0) then q else -q

/-- The unbounded result of an operator; a remainder is what the quotient leaves. -/
def intResult (op : BinaryOp) (a b : Int) : Except Fault Int :=
  match op with
  | .add => pure (a + b)
  | .sub => pure (a - b)
  | .mul => pure (a * b)
  | .sdiv => if b = 0 then throw (.divisionByZero op) else pure (quotient a b)
  | .srem => if b = 0 then throw (.divisionByZero op) else pure (a - b * quotient a b)
  | .and => pure (Bits.and a b)
  | .or => pure (Bits.or a b)
  | .xor => pure (Bits.xor a b)
  | .unknown name => throw (.unknownOperator name)

/-- The value of a binary operator. -/
def binary (op : BinaryOp) (ty : Ty) (u v : Value) : Except Fault Value :=
  match op, u, v with
  | .unknown name, _, _ => throw (.unknownOperator name)
  | .and, .bool a, .bool b => pure (.bool (a && b))
  | .or, .bool a, .bool b => pure (.bool (a || b))
  | .xor, .bool a, .bool b => pure (.bool (a != b))
  | op, .int a, .int b => do
    let n ← intResult op a b
    pure (.int (wrap (width ty) n))
  | op, u, v => throw (.mismatch op.name u v)

/-- The value of a comparison. -/
def comparison (c : Condition) (u v : Value) : Except Fault Value :=
  match c, u, v with
  | .unknown name, _, _ => throw (.unknownComparison name)
  | .eq, .bool a, .bool b => pure (.bool (a == b))
  | .ne, .bool a, .bool b => pure (.bool (a != b))
  | .eq, .int a, .int b => pure (.bool (decide (a = b)))
  | .ne, .int a, .int b => pure (.bool (decide (a ≠ b)))
  | .slt, .int a, .int b => pure (.bool (decide (a < b)))
  | .sle, .int a, .int b => pure (.bool (decide (a ≤ b)))
  | .sgt, .int a, .int b => pure (.bool (decide (b < a)))
  | .sge, .int a, .int b => pure (.bool (decide (b ≤ a)))
  | c, u, v => throw (.mismatch ("icmp " ++ c.name) u v)

/-- The value of an atom: registers and globals are looked up, pointers cannot be written down. -/
def atom (p : Program) (env : Env) (v : Value) : Except Fault Value :=
  match v with
  | .register k =>
    match env.get? k with
    | some v => pure v
    | none => throw (.undefinedRegister k)
  | .global k => if p.knows k then pure (.fnPtr k) else throw (.undefinedGlobal k)
  | .binop .. | .icmp .. | .gep .. => throw (.nestedOperator v)
  | .addr _ | .fnPtr _ => throw (.forgedPointer v)
  | .int _ | .bool _ | .null | .zero | .str _ | .undef | .foreign => pure v

/-- Checks the indices of an element address, from left to right. -/
def checkIndices (p : Program) (env : Env) : List Value → Except Fault Unit
  | [] => pure ()
  | i :: is => do
    match ← atom p env i with
    | .int 0 => checkIndices p env is
    | v => throw (.elementOutOfBounds v)

/-- The value of an operand. -/
def operand (p : Program) (env : Env) (v : Value) : Except Fault Value :=
  match v with
  | .binop op ty l r => do
    let a ← atom p env l
    let b ← atom p env r
    binary op ty a b
  | .icmp c _ l r => do
    let a ← atom p env l
    let b ← atom p env r
    comparison c a b
  | .gep _ base indices => do
    match ← atom p env base with
    | .addr n => do
      checkIndices p env indices
      pure (.addr n)
    | v => throw (.elementOfNonPointer v)
  | v => atom p env v

/-- The index of the live cell that a pointer refers to, and the cell. -/
def deref (memory : List Cell) (v : Value) : Except Fault (Nat × Cell) :=
  match v with
  | .addr n =>
    if n < 0 then throw (.foreignPointer v)
    else
      match memory[n.toNat]? with
      | none => throw (.foreignPointer v)
      | some cell => if cell.live then pure (n.toNat, cell) else throw (.stalePointer v)
  | v => throw (.nonPointer v)

end ImpSSA.Machine
