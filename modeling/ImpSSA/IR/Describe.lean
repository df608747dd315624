import ImpSSA.Text.Quoted
import ImpSSA.IR.Basic

/-!
# Descriptions of the representation

The record form of types, values and items, used where a message has to show a part of a program
that has no written form of its own.
-/

namespace ImpSSA.IR

open Text (record quote sequence)

/-- The description of a key. -/
def Key.describe : Key → String
  | .anon n => toString n
  | .named s => quote s

/-- The description of an identifier. -/
def InstrId.describe : InstrId → String
  | .result k => record "IId" [("raw", k.describe)]
  | .void n => record "IVoid" [("n", toString n)]

mutual

/-- The description of a type. -/
def Ty.describe : Ty → String
  | .int bits => record "IntType" [("bits", toString bits)]
  | .ptr t => record "PointerType" [("pointee", t.describe)]
  | .void => record "VoidType" []
  | .fn ret args => record "FunctionType" [("ret", ret.describe), ("args", sequence (Ty.describeAll args))]
  | .foreign => record "OtherType" []

/-- The descriptions of some types. -/
def Ty.describeAll : List Ty → List String
  | [] => []
  | t :: ts => t.describe :: Ty.describeAll ts

end

mutual

/-- The description of a value. -/
def Value.describe : Value → String
  | .int n => record "Int" [("value", toString n)]
  | .bool b => record "Bool" [("value", if b then "True" else "False")]
  | .null => record "Null" []
  | .zero => record "ZeroInit" []
  | .register k => record "IdentRef" [("ident", record "LocalId" [("key", k.describe)])]
  | .global k => record "IdentRef" [("ident", record "GlobalId" [("key", k.describe)])]
  | .str s => record "Str" [("value", quote s)]
  | .undef => record "Undef" []
  | .binop op ty l r =>
    record "BinOpExpr"
      [("op", quote op.name), ("typ", ty.describe), ("left", l.describe), ("right", r.describe)]
  | .icmp c ty l r =>
    record "ICmpExpr"
      [("cond", quote c.name), ("typ", ty.describe), ("left", l.describe), ("right", r.describe)]
  | .gep ty base indices =>
    record "GepExpr" [("typ", ty.describe), ("base", base.describe),
      ("indices", sequence (Value.describeAll indices))]
  | .addr n => record "Addr" [("address", toString n)]
  | .fnPtr name => record "FunctionPointer" [("name", name.describe)]
  | .foreign => record "OtherValue" []

/-- The descriptions of some values. -/
def Value.describeAll : List Value → List String
  | [] => []
  | v :: vs => v.describe :: Value.describeAll vs

end

/-- The description of an instruction. -/
def Instr.describe : Instr → String
  | .binop op ty l r =>
    record "BinOp"
      [("op", quote op.name), ("typ", ty.describe), ("left", l.describe), ("right", r.describe)]
  | .icmp c ty l r =>
    record "ICmp"
      [("cond", quote c.name), ("typ", ty.describe), ("left", l.describe), ("right", r.describe)]
  | .alloca ty => record "Alloca" [("typ", ty.describe)]
  | .load ty p => record "Load" [("typ", ty.describe), ("ptr", p.describe)]
  | .store ty v p =>
    record "Store" [("typ", ty.describe), ("value", v.describe), ("ptr", p.describe)]
  | .call ret f args =>
    record "Call" [("ret_typ", ret.describe), ("fn", f.describe),
      ("args", sequence (args.map fun (t, v) => sequence [t.describe, v.describe]))]
  | .foreign => record "OtherInstr" []

/-- The description of a terminator. -/
def Term.describe : Term → String
  | .br target => record "Br" [("target", target.describe)]
  | .condBr c t e =>
    record "CondBr" [("cond", c.describe), ("then", t.describe), ("els", e.describe)]
  | .retVoid => record "RetVoid" []
  | .ret ty v => record "Ret" [("typ", ty.describe), ("value", v.describe)]
  | .foreign => record "OtherTerm" []

/-- The description of an item. -/
def Item.describe : Item → String
  | .instr i => i.describe
  | .term t => t.describe

end ImpSSA.IR
