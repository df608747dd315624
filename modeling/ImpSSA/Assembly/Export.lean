import ImpSSA.IR.Describe
import ImpSSA.Assembly.Module
import ImpSSA.Assembly.Scope

/-!
# Export

`IR.Program.export` builds the module of a program. Functions, parameters, blocks and results keep
their keys in their names: `b` in front of a label and `v` in front of a register. An operator inside
an operand becomes an instruction of its own. Types are checked as the assembly demands, and values
that only arise at run time cannot be exported.
-/

namespace ImpSSA.Assembly

open IR (Key InstrId Item Definition Entity)

/-- Why a program has no module. -/
inductive ExportError where
  | noType (t : IR.Ty)
  | unknownLabel (fn label : Key)
  | undefinedGlobal (fn k : Key)
  | undefinedRegister (fn k : Key)
  | unsupportedValue (fn : Key) (v : IR.Value)
  | unsupportedInstr (fn : Key) (item : Item)
  | unsupportedTerm (fn : Key) (item : Item)
  | unknownOperator (fn : Key) (name : String)
  | duplicateFunction (name : String)
  | unknownCondition (name : String)
  | operandMismatch (l r : Ty)
  | notPointer (t : Ty)
  | storeMismatch (value pointer : Ty)
  | notFunction (t : Ty)
  | argumentMismatch (expected found : Ty)
  | missingArgument
  | indexNotInt (t : Ty)
  | elementOfNonPointer (t : Ty)
  | constantCallee
  | pointerToVoid
  | voidConstant
  | negativeWidth (bits : Int)
  | secondTerminator (label : Key)

/-- What is reported of an error. -/
def ExportError.message : ExportError → String
  | .noType t => "no LLVM type for " ++ t.describe
  | .unknownLabel fn label => "@" ++ fn.text ++ ": branch to unknown label " ++ label.text
  | .undefinedGlobal fn k => "@" ++ fn.text ++ ": undefined global @" ++ k.text
  | .undefinedRegister fn k => "@" ++ fn.text ++ ": %" ++ k.text ++ " used before definition"
  | .unsupportedValue fn v => "@" ++ fn.text ++ ": cannot export value " ++ v.describe
  | .unsupportedInstr fn item =>
    "@" ++ fn.text ++ ": cannot export instruction " ++ item.describe
  | .unsupportedTerm fn item =>
    "@" ++ fn.text ++ ": cannot export terminator " ++ item.describe
  | .unknownOperator fn name => "@" ++ fn.text ++ ": unknown binary operator " ++ name
  | .duplicateFunction name => "duplicate function " ++ name
  | .unknownCondition name => "unknown comparison " ++ name
  | .operandMismatch .. => "operands of different types"
  | .notPointer _ => "access through a non-pointer"
  | .storeMismatch .. => "store of another type than the pointer's"
  | .notFunction _ => "call of a non-function"
  | .argumentMismatch .. => "argument of another type than the parameter's"
  | .missingArgument => "call with too few arguments"
  | .indexNotInt _ => "index that is not an integer"
  | .elementOfNonPointer _ => "element of a non-pointer"
  | .constantCallee => "call of a constant"
  | .pointerToVoid => "pointer to void"
  | .voidConstant => "constant of type void"
  | .negativeWidth _ => "negative width"
  | .secondTerminator label => "second terminator in block " ++ label.text

/-- The pointer type to a type. -/
def pointerTo : Ty → Except ExportError Ty
  | .void => throw .pointerToVoid
  | t => pure (.ptr t)

mutual

/-- The exported type. -/
def convert : IR.Ty → Except ExportError Ty
  | .int bits => if bits < 0 then throw (.negativeWidth bits) else pure (.int bits.toNat)
  | .ptr t => do pointerTo (← convert t)
  | .void => pure .void
  | .fn ret args => do
    let r ← convert ret
    let ts ← convertAll args
    pure (.fn r ts)
  | .foreign => throw (.noType .foreign)

/-- The exported types. -/
def convertAll : List IR.Ty → Except ExportError (List Ty)
  | [] => pure []
  | t :: ts => do
    let u ← convert t
    let us ← convertAll ts
    pure (u :: us)

end

/-- A constant of a converted type. -/
def constant (ty : IR.Ty) (c : Constant) : Except ExportError Operand := do
  match ← convert ty with
  | .void => throw .voidConstant
  | t => pure (.constant t c)

/-- What is known where code of a function is exported. -/
structure Site where
  fn : Key
  functions : Table Key Operand
  labels : Table Key String

/-- The state of the export of a function: names, registers, and the block so far. -/
structure Lowering where
  scope : Scope
  env : Table Key Operand
  code : Array Instr

/-- Steps of the export of a function. -/
abbrev Lower := StateT Lowering (Except ExportError)

/-- Adds an instruction, which takes the name `base` or a numbered form of it. -/
def emit (base : String) (type : Ty) (action : Action) : Lower Operand := do
  let s ← get
  let (name, scope) := s.scope.register base
  set { s with scope, code := s.code.push ⟨name, type, action⟩ }
  pure (.register type name)

/-- The method of the builder for an operator. It has the operator's name, except for two names that
are taken and end in an underscore. -/
def method? : IR.BinaryOp → Option String
  | .unknown _ => none
  | op => some (if op = .and ∨ op = .or then op.name ++ "_" else op.name)

/-- The sign of a comparison. -/
def sign? : IR.Condition → Option String
  | .eq => some "=="
  | .ne => some "!="
  | .slt => some "<"
  | .sle => some "<="
  | .sgt => some ">"
  | .sge => some ">="
  | .unknown _ => none

/-- A binary operator, whose operands have one type. -/
def emitBinary (site : Site) (base : String) (op : IR.BinaryOp) (l r : Operand) : Lower Operand :=
  match (method? op).bind opcode? with
  | none => throw (.unknownOperator site.fn op.name)
  | some code =>
    if l.type = r.type then emit base l.type (.binary code l r)
    else throw (.operandMismatch l.type r.type)

/-- A comparison. -/
def emitComparison (base : String) (c : IR.Condition) (l r : Operand) : Lower Operand :=
  match (sign? c).bind signed? with
  | none => throw (.unknownCondition c.name)
  | some code => emit base (.int 1) (.icmp code l r)

/-- The type of the address that indices lead to from a pointer to `t`, each through one pointer. The
last pointer gone through is kept unless it points to a pointer. -/
def elementType (t : Ty) : List Operand → Except ExportError Ty
  | [] => pure (.ptr (.ptr t))
  | i :: rest =>
    match i.type with
    | .int _ =>
      match t, rest with
      | .ptr u, rest => elementType u rest
      | t, [] => pure (.ptr t)
      | t, _ :: _ => throw (.elementOfNonPointer t)
    | it => throw (.indexNotInt it)

/-- An element address. -/
def emitElement (base : Operand) (indices : List Operand) : Lower Operand :=
  match base.type with
  | .ptr source => do
    let type ← elementType source indices
    emit "" type (.gep source base indices)
  | t => throw (.elementOfNonPointer t)

mutual

/-- An operand; `ty` is the type of a constant. -/
def lowerOperand (site : Site) (ty : IR.Ty) : IR.Value → Lower Operand
  | .int n => constant ty (.int n)
  | .bool b => pure (.constant (.int 1) (.int (if b then 1 else 0)))
  | .null | .zero => constant ty .zero
  | .undef => constant ty .undef
  | .global k =>
    match site.functions.get? k with
    | some f => pure f
    | none => throw (.undefinedGlobal site.fn k)
  | .register k => do
    match (← get).env.get? k with
    | some x => pure x
    | none => throw (.undefinedRegister site.fn k)
  | .binop op ty l r => do
    let u ← lowerOperand site ty l
    let v ← lowerOperand site ty r
    emitBinary site "" op u v
  | .icmp c ty l r => do
    let u ← lowerOperand site ty l
    let v ← lowerOperand site ty r
    emitComparison "" c u v
  | .gep ty base indices => do
    let b ← lowerOperand site (.ptr ty) base
    let is ← lowerIndices site indices
    emitElement b is
  | .str s => throw (.unsupportedValue site.fn (.str s))
  | .addr n => throw (.unsupportedValue site.fn (.addr n))
  | .fnPtr name => throw (.unsupportedValue site.fn (.fnPtr name))
  | .foreign => throw (.unsupportedValue site.fn .foreign)

/-- The indices of an element address. -/
def lowerIndices (site : Site) : List IR.Value → Lower (List Operand)
  | [] => pure []
  | v :: vs => do
    let x ← lowerOperand site .i64 v
    let xs ← lowerIndices site vs
    pure (x :: xs)

end

/-- Arguments with their written types. -/
def lowerArgs (site : Site) : List (IR.Ty × IR.Value) → Lower (List Operand)
  | [] => pure []
  | (ty, v) :: rest => do
    let x ← lowerOperand site ty v
    let xs ← lowerArgs site rest
    pure (x :: xs)

/-- Result and parameters of what an operand points to. -/
def signature : Operand → Except ExportError (Ty × List Ty)
  | .function _ ret args => pure (ret, args)
  | .register (.ptr (.fn ret args)) _ | .register (.fn ret args) _ => pure (ret, args)
  | .register t _ => throw (.notFunction t)
  | .constant .. => throw .constantCallee

/-- Checks arguments against parameters from left to right; more arguments are not looked at. -/
def checkArgs : List Ty → List Operand → Except ExportError Unit
  | [], _ => pure ()
  | _ :: _, [] => throw .missingArgument
  | t :: ts, x :: xs => if x.type = t then checkArgs ts xs else throw (.argumentMismatch t x.type)

/-- A call. -/
def emitCall (base : String) (f : Operand) (args : List Operand) : Lower Operand := do
  let (ret, params) ← signature f
  checkArgs params args
  emit base ret (.call ret f args)

/-- The name wanted for the result of an item. -/
def resultName : InstrId → String
  | .result k => "v" ++ k.text
  | .void _ => ""

/-- An item in instruction position, and its result if it has one. -/
def lowerItem (site : Site) (i : InstrId) (item : Item) : Lower (Option Operand) :=
  match item with
  | .instr (.binop op ty l r) => do
    let u ← lowerOperand site ty l
    let v ← lowerOperand site ty r
    some <$> emitBinary site (resultName i) op u v
  | .instr (.icmp c ty l r) => do
    let u ← lowerOperand site ty l
    let v ← lowerOperand site ty r
    some <$> emitComparison (resultName i) c u v
  | .instr (.alloca ty) => do
    let t ← convert ty
    let type ← pointerTo t
    some <$> emit (resultName i) type (.alloca t)
  | .instr (.load ty ptr) => do
    let p ← lowerOperand site (.ptr ty) ptr
    match p.type with
    | .ptr t => some <$> emit (resultName i) t (.load t p)
    | t => throw (.notPointer t)
  | .instr (.store ty value ptr) => do
    let v ← lowerOperand site ty value
    let p ← lowerOperand site (.ptr ty) ptr
    match p.type with
    | .ptr t =>
      if v.type = t then
        let _ ← emit "" .void (.store v p)
        pure none
      else throw (.storeMismatch v.type t)
    | t => throw (.notPointer t)
  | .instr (.call ret f args) => do
    let g ← lowerOperand site (.ptr (.fn ret [])) f
    let xs ← lowerArgs site args
    if ret.isVoid then
      let _ ← emitCall "" g xs
      pure none
    else
      some <$> emitCall (resultName i) g xs
  | item => throw (.unsupportedInstr site.fn item)

/-- The name of the block of a label. -/
def target (site : Site) (label : Key) : Except ExportError String :=
  match site.labels.get? label with
  | some name => pure name
  | none => throw (.unknownLabel site.fn label)

/-- An item in terminator position. -/
def lowerTerm (site : Site) (item : Item) : Lower Unit := do
  match item with
  | .term (.br label) =>
    let name ← target site label
    let _ ← emit "" .void (.br name)
  | .term (.condBr c t e) =>
    let x ← lowerOperand site .i1 c
    let tn ← target site t
    let en ← target site e
    let _ ← emit "" .void (.condBr x tn en)
  | .term .retVoid =>
    let _ ← emit "" .void .retVoid
  | .term (.ret ty v) =>
    let x ← lowerOperand site ty v
    let _ ← emit "" .void (.ret x)
  | item => throw (.unsupportedTerm site.fn item)

/-- Code from left to right; a result is known to what comes after it. -/
def lowerCode (site : Site) : List (InstrId × Item) → Lower Unit
  | [] => pure ()
  | (i, item) :: rest => do
    let result ← lowerItem site i item
    match i, result with
    | .result k, some x => modify fun s => { s with env := s.env.insert k x }
    | _, _ => pure ()
    lowerCode site rest

/-- A block under its name. -/
def lowerBlock (site : Site) (b : IR.Block) (name : String) : Lower Block := do
  modify fun s => { s with code := #[] }
  lowerCode site b.code
  lowerTerm site b.term.2
  pure ⟨name, (← get).code.toList⟩

/-- Blocks with their names. A label that came before has its terminator already. -/
def lowerBlocks (site : Site) : (seen : List Key) → List (IR.Block × String) → Lower (List Block)
  | _, [] => pure []
  | seen, (b, name) :: rest => do
    let block ← lowerBlock site b name
    if seen.contains b.label then throw (.secondTerminator b.label)
    let blocks ← lowerBlocks site (b.label :: seen) rest
    pure (block :: blocks)

/-- A function before its blocks, and the names it has taken. -/
structure Header where
  name : String
  ret : Ty
  params : List (Ty × String)
  scope : Scope

/-- The function as an operand. -/
def Header.operand (h : Header) : Operand := .function h.name h.ret (h.params.map (·.1))

/-- The header of a function. Arguments and the result take unnamed places first; parameters then
take names of their own as far as there are arguments for them. -/
def header (e : Entity) : Except ExportError Header := do
  let ret ← convert e.type.ret
  let args ← convertAll e.type.args
  let (unnamed, scope) := Scope.start.registerAll (args.map fun _ => "")
  let (_, scope) := scope.register ""
  let wanted := (e.params.take args.length).map fun k => "v" ++ k.text
  let (names, scope) := scope.registerAll wanted
  pure ⟨e.name.text, ret, args.zip (names ++ unnamed.drop names.length), scope⟩

/-- The headers of functions whose names are new to those `used`. -/
def headers : (used : List String) → List Entity → Except ExportError (List Header)
  | _, [] => pure []
  | used, e :: es => do
    let h ← header e
    if used.contains h.name then throw (.duplicateFunction h.name)
    let hs ← headers (h.name :: used) es
    pure (h :: hs)

/-- The function of a header and its definition. -/
def defineFunction (functions : Table Key Operand) (h : Header) (d : Definition) :
    Except ExportError Function := do
  let (names, scope) := h.scope.registerAll (d.blocks.map fun b => "b" ++ b.label.text)
  let site : Site := ⟨d.name, functions, Table.ofList ((d.blocks.map (·.label)).zip names)⟩
  let args := h.params.map fun (t, name) => Operand.register t name
  let start : Lowering := ⟨scope, Table.ofList (d.params.zip args), #[]⟩
  let (blocks, _) ← (lowerBlocks site [] (d.blocks.zip names)).run start
  pure ⟨h.name, h.ret, h.params, blocks⟩

/-- The function of a header and its entity. -/
def exportEntity (functions : Table Key Operand) (e : Entity) (h : Header) :
    Except ExportError Function :=
  match e with
  | .declare _ => pure ⟨h.name, h.ret, h.params, []⟩
  | .define d => defineFunction functions h d

end ImpSSA.Assembly

namespace ImpSSA.IR

open Assembly

/-- The name of a module unless another is asked for. -/
def defaultModule : String := "imp_module"

/-- The module of a program. -/
def Program.export (p : Program) (name : String) : Except ExportError Module := do
  let hs ← headers [""] p.entities
  let functions := Table.ofList ((p.entities.map Entity.name).zip (hs.map Header.operand))
  let fs ← (p.entities.zip hs).mapM fun (e, h) => exportEntity functions e h
  pure ⟨name, fs⟩

end ImpSSA.IR
