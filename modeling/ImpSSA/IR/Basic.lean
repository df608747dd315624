import ImpSSA.Table

/-!
# The intermediate representation

Programs of functions made of basic blocks. A block is a list of identified items and a last one
that leaves it; nothing in the types keeps instructions and terminators apart, nor labels and
identifiers distinct, since that is what `ImpSSA.IR.Program.verify` checks. The `foreign` members of
a type are known to no operation.
-/

namespace ImpSSA.IR

/-- A name or a number, for registers, labels and functions. `1` and the name `"1"` differ. -/
inductive Key where
  | anon (n : Int)
  | named (s : String)
  deriving DecidableEq, Repr

namespace Key

/-- A key as it is written. -/
def text : Key → String
  | .anon n => toString n
  | .named s => s

/-- Numbers come before names. -/
instance : Ord Key where
  compare
    | .anon m, .anon n => compare m n
    | .anon _, .named _ => .lt
    | .named _, .anon _ => .gt
    | .named s, .named t => compare s t

/-- Numbers are compared as numbers. -/
theorem compare_anon (m n : Int) : compare (anon m) (anon n) = compare m n := rfl

/-- Names are compared as texts. -/
theorem compare_named (s t : String) : compare (named s) (named t) = compare s t := rfl

/-- A number comes before every name. -/
theorem compare_anon_named (m : Int) (t : String) : compare (anon m) (named t) = .lt := rfl

/-- A name comes behind every number. -/
theorem compare_named_anon (s : String) (n : Int) : compare (named s) (anon n) = .gt := rfl

instance : Std.LawfulEqOrd Key where
  compare_self {a} := by
    cases a with
    | anon n => rw [compare_anon, Std.compare_self]
    | named s => rw [compare_named, Std.compare_self]
  eq_of_compare {a b} h := by
    cases a with
    | anon m =>
      cases b with
      | anon n =>
        rw [compare_anon] at h
        exact congrArg anon (Std.LawfulEqCmp.eq_of_compare h)
      | named t => simp [compare_anon_named] at h
    | named s =>
      cases b with
      | anon n => simp [compare_named_anon] at h
      | named t =>
        rw [compare_named] at h
        exact congrArg named (Std.LawfulEqCmp.eq_of_compare h)

instance : Std.TransOrd Key where
  eq_swap {a b} := by
    cases a with
    | anon m =>
      cases b with
      | anon n => rw [compare_anon, compare_anon]; exact Std.OrientedCmp.eq_swap
      | named t => rfl
    | named s =>
      cases b with
      | anon n => rfl
      | named t => rw [compare_named, compare_named]; exact Std.OrientedCmp.eq_swap
  isLE_trans {a b c} hab hbc := by
    cases a <;> cases b <;> cases c <;>
      simp only [compare_anon, compare_named, compare_anon_named, compare_named_anon,
        Ordering.isLE_lt, Ordering.isLE_gt, Bool.false_eq_true] at hab hbc ⊢
    · exact Std.TransCmp.isLE_trans hab hbc
    · exact Std.TransCmp.isLE_trans hab hbc

end Key

/-- Types. -/
inductive Ty where
  | int (bits : Int)
  | ptr (t : Ty)
  | void
  | fn (ret : Ty) (args : List Ty)
  | foreign
  deriving Repr

/-- Whether a type is that of no value. -/
def Ty.isVoid : Ty → Bool
  | .void => true
  | .int _ | .ptr _ | .fn .. | .foreign => false

/-- Truth values. -/
abbrev Ty.i1 : Ty := .int 1

/-- The words that programs compute with. -/
abbrev Ty.i64 : Ty := .int 64

/-- Binary operators; one that is not known is kept by name. -/
inductive BinaryOp where
  | add
  | sub
  | mul
  | sdiv
  | srem
  | and
  | or
  | xor
  | unknown (name : String)
  deriving DecidableEq, Repr

/-- An operator as it is written. -/
def BinaryOp.name : BinaryOp → String
  | .add => "add"
  | .sub => "sub"
  | .mul => "mul"
  | .sdiv => "sdiv"
  | .srem => "srem"
  | .and => "and"
  | .or => "or"
  | .xor => "xor"
  | .unknown name => name

/-- The operators that are known. -/
def BinaryOp.all : List BinaryOp := [.add, .sub, .mul, .sdiv, .srem, .and, .or, .xor]

/-- The operator of a name. -/
def BinaryOp.ofName (name : String) : BinaryOp :=
  (all.find? (·.name = name)).getD (.unknown name)

/-- Signed comparisons; one that is not known is kept by name. -/
inductive Condition where
  | eq
  | ne
  | slt
  | sle
  | sgt
  | sge
  | unknown (name : String)
  deriving DecidableEq, Repr

/-- A comparison as it is written. -/
def Condition.name : Condition → String
  | .eq => "eq"
  | .ne => "ne"
  | .slt => "slt"
  | .sle => "sle"
  | .sgt => "sgt"
  | .sge => "sge"
  | .unknown name => name

/-- The comparisons that are known. -/
def Condition.all : List Condition := [.eq, .ne, .slt, .sle, .sgt, .sge]

/-- The comparison of a name. -/
def Condition.ofName (name : String) : Condition :=
  (all.find? (·.name = name)).getD (.unknown name)

/-- Operands and what they evaluate to. Addresses and function pointers arise only when a program
runs; operator expressions and references only stand in operands. -/
inductive Value where
  | int (n : Int)
  | bool (b : Bool)
  | null
  | zero
  | register (k : Key)
  | global (k : Key)
  | str (s : String)
  | undef
  | binop (op : BinaryOp) (ty : Ty) (l r : Value)
  | icmp (c : Condition) (ty : Ty) (l r : Value)
  | gep (ty : Ty) (base : Value) (indices : List Value)
  | addr (n : Int)
  | fnPtr (name : Key)
  | foreign
  deriving Repr

/-- What identifies an item of a function: the register that takes its result, or a number if it
has none. -/
inductive InstrId where
  | result (k : Key)
  | void (n : Int)
  deriving DecidableEq, Repr

/-- The register that takes a result. -/
def InstrId.register? : InstrId → Option Key
  | .result k => some k
  | .void _ => none

/-- Instructions. -/
inductive Instr where
  | binop (op : BinaryOp) (ty : Ty) (l r : Value)
  | icmp (c : Condition) (ty : Ty) (l r : Value)
  | alloca (ty : Ty)
  | load (ty : Ty) (p : Value)
  | store (ty : Ty) (v p : Value)
  | call (ret : Ty) (f : Value) (args : List (Ty × Value))
  | foreign
  deriving Repr

/-- Terminators. -/
inductive Term where
  | br (target : Key)
  | condBr (c : Value) (t e : Key)
  | retVoid
  | ret (ty : Ty) (v : Value)
  | foreign
  deriving Repr

/-- The labels a terminator may go to. -/
def Term.targets : Term → List Key
  | .br target => [target]
  | .condBr _ t e => [t, e]
  | .retVoid | .ret .. | .foreign => []

/-- What stands at a place of a block. -/
inductive Item where
  | instr (i : Instr)
  | term (t : Term)
  deriving Repr

/-- Whether an item is a terminator. -/
def Item.isTerm : Item → Bool
  | .term _ => true
  | .instr _ => false

/-- A basic block: code, then the item in terminator position. -/
structure Block where
  label : Key
  code : List (InstrId × Item)
  term : InstrId × Item
  deriving Repr

/-- Where the execution of a block starts. -/
def Block.firstId (b : Block) : InstrId :=
  match b.code with
  | (i, _) :: _ => i
  | [] => b.term.1

/-- The last index in the code at which `i` identifies an item. -/
def indexOfLast (i : InstrId) : List (InstrId × Item) → Option Nat
  | [] => none
  | (j, _) :: rest =>
    match indexOfLast i rest with
    | some k => some (k + 1)
    | none => if i = j then some 0 else none

/-- Results and parameters of a function. -/
structure FnTy where
  ret : Ty
  args : List Ty
  deriving Repr

/-- A function defined elsewhere. -/
structure Declaration where
  name : Key
  type : FnTy
  deriving Repr

/-- A function and its blocks, the entry block first. -/
structure Definition where
  name : Key
  type : FnTy
  params : List Key
  blocks : List Block
  deriving Repr

/-- The block of a label; of several, the last. -/
def Definition.block? (d : Definition) (label : Key) : Option Block :=
  d.blocks.reverse.find? (·.label = label)

/-- A member of a program. -/
inductive Entity where
  | declare (d : Declaration)
  | define (d : Definition)
  deriving Repr

/-- The name of a function. -/
def Entity.name : Entity → Key
  | .declare d => d.name
  | .define d => d.name

/-- The type of a function. -/
def Entity.type : Entity → FnTy
  | .declare d => d.type
  | .define d => d.type

/-- The parameters of a function; a declared one has none. -/
def Entity.params : Entity → List Key
  | .declare _ => []
  | .define d => d.params

/-- A whole program. -/
structure Program where
  entities : List Entity
  deriving Repr

namespace Program

/-- The definitions in order. -/
def definitions (p : Program) : List Definition :=
  p.entities.filterMap fun
    | .define d => some d
    | .declare _ => none

/-- The declarations in order. -/
def declarations (p : Program) : List Declaration :=
  p.entities.filterMap fun
    | .declare d => some d
    | .define _ => none

/-- The definition of a name; of several, the last. -/
def definition? (p : Program) (name : Key) : Option Definition :=
  p.definitions.reverse.find? (·.name = name)

/-- Whether a name is declared. -/
def declares (p : Program) (name : Key) : Bool := p.declarations.any (·.name = name)

/-- Whether a name is defined or declared. -/
def knows (p : Program) (name : Key) : Bool := p.entities.any (·.name = name)

end Program

end ImpSSA.IR
