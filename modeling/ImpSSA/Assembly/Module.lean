import ImpSSA.IR.Basic

/-!
# Modules of typed assembly

The shape of an exported program: functions of blocks of instructions whose operands carry their
types. Every instruction has a name in its function, also one whose result is void and whose name is
never printed. Instructions are added by a builder, which has a method for each operator (`opcode?`) and
takes comparisons by their signs (`signed?`).
-/

namespace ImpSSA.Assembly

/-- Types. -/
inductive Ty where
  | int (width : Nat)
  | ptr (t : Ty)
  | void
  | fn (ret : Ty) (args : List Ty)
  deriving Repr

mutual

/-- Whether two types are the same. -/
def Ty.same : Ty → Ty → Bool
  | .int m, .int n => m == n
  | .ptr s, .ptr t => s.same t
  | .void, .void => true
  | .fn r ss, .fn r' ts => r.same r' && Ty.sameAll ss ts
  | _, _ => false

/-- Whether two lists of types are the same. -/
def Ty.sameAll : List Ty → List Ty → Bool
  | [], [] => true
  | s :: ss, t :: ts => s.same t && Ty.sameAll ss ts
  | _, _ => false

end

mutual

/-- The test is equality of types. -/
theorem Ty.same_iff : ∀ s t : Ty, s.same t = true ↔ s = t
  | .int m, t => by cases t <;> simp [Ty.same]
  | .ptr s, t => by cases t <;> simp [Ty.same, Ty.same_iff s]
  | .void, t => by cases t <;> simp [Ty.same]
  | .fn r ss, t => by cases t <;> simp [Ty.same, Ty.same_iff r, Ty.sameAll_iff ss]

/-- The test is equality of lists of types. -/
theorem Ty.sameAll_iff : ∀ ss ts : List Ty, Ty.sameAll ss ts = true ↔ ss = ts
  | [], ts => by cases ts <;> simp [Ty.sameAll]
  | s :: ss, ts => by cases ts <;> simp [Ty.sameAll, Ty.same_iff s, Ty.sameAll_iff ss]

end

instance : DecidableEq Ty := fun s t => decidable_of_iff _ (Ty.same_iff s t)

/-- Constants. -/
inductive Constant where
  | int (n : Int)
  | zero
  | undef
  deriving DecidableEq, Repr

/-- Operands with their types. -/
inductive Operand where
  | constant (ty : Ty) (c : Constant)
  | register (ty : Ty) (name : String)
  | function (name : String) (ret : Ty) (args : List Ty)
  deriving DecidableEq, Repr

/-- The type of an operand; a function is a pointer to one. -/
def Operand.type : Operand → Ty
  | .constant ty _ | .register ty _ => ty
  | .function _ ret args => .ptr (.fn ret args)

/-- What an instruction does. -/
inductive Action where
  | binary (op : IR.BinaryOp) (l r : Operand)
  | icmp (c : IR.Condition) (l r : Operand)
  | alloca (ty : Ty)
  | load (ty : Ty) (p : Operand)
  | store (v p : Operand)
  | call (ret : Ty) (f : Operand) (args : List Operand)
  | gep (source : Ty) (base : Operand) (indices : List Operand)
  | br (target : String)
  | condBr (c : Operand) (t e : String)
  | retVoid
  | ret (v : Operand)
  deriving DecidableEq, Repr

/-- The operator of the instruction that a method of the builder adds. -/
def opcode? : (method : String) → Option IR.BinaryOp
  | "add" => some .add
  | "sub" => some .sub
  | "mul" => some .mul
  | "sdiv" => some .sdiv
  | "srem" => some .srem
  | "and_" => some .and
  | "or_" => some .or
  | "xor" => some .xor
  | _ => none

/-- The comparison of signed integers that a sign asks the builder for. -/
def signed? : (sign : String) → Option IR.Condition
  | "==" => some .eq
  | "!=" => some .ne
  | "<" => some .slt
  | "<=" => some .sle
  | ">" => some .sgt
  | ">=" => some .sge
  | _ => none

/-- An instruction with its name and the type of its result. -/
structure Instr where
  name : String
  type : Ty
  action : Action
  deriving DecidableEq, Repr

/-- A block. -/
structure Block where
  name : String
  code : List Instr
  deriving DecidableEq, Repr

/-- A function; one without blocks is only declared. -/
structure Function where
  name : String
  ret : Ty
  params : List (Ty × String)
  blocks : List Block
  deriving DecidableEq, Repr

/-- A module. -/
structure Module where
  name : String
  functions : List Function
  deriving DecidableEq, Repr

end ImpSSA.Assembly
