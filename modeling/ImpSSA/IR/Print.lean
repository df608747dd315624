import ImpSSA.IR.Basic

/-!
# The text of the representation

`Program.text` writes a program the way it is shown in reports. Numbers of items without a result
are not printed, and what is not known is marked as invalid.
-/

namespace ImpSSA.IR

mutual

/-- A type. -/
def Ty.text : Ty → String
  | .int bits => "i" ++ toString bits
  | .ptr t => t.text ++ "*"
  | .void => "void"
  | .fn ret args => ret.text ++ " (" ++ ", ".intercalate (Ty.texts args) ++ ")"
  | .foreign => "<invalid type>"

/-- Some types. -/
def Ty.texts : List Ty → List String
  | [] => []
  | t :: ts => t.text :: Ty.texts ts

end

mutual

/-- A value. -/
def Value.text : Value → String
  | .int n => toString n
  | .bool b => if b then "true" else "false"
  | .null => "null"
  | .zero => "zeroinitializer"
  | .register k => "%" ++ k.text
  | .global k => "@" ++ k.text
  | .str s => "c\"" ++ s ++ "\""
  | .undef => "undef"
  | .binop op ty l r =>
    op.name ++ " (" ++ ty.text ++ " " ++ l.text ++ ", " ++ ty.text ++ " " ++ r.text ++ ")"
  | .icmp c ty l r =>
    "icmp " ++ c.name ++ " (" ++ ty.text ++ " " ++ l.text ++ ", " ++ ty.text ++ " " ++ r.text ++ ")"
  | .gep ty base indices =>
    "getelementptr (" ++ ", ".intercalate (ty.text :: base.text :: Value.texts indices) ++ ")"
  | .addr n => "addr(" ++ toString n ++ ")"
  | .fnPtr name => "@" ++ name.text
  | .foreign => "<invalid value>"

/-- Some values. -/
def Value.texts : List Value → List String
  | [] => []
  | v :: vs => v.text :: Value.texts vs

end

/-- A value after its type. -/
def Value.typed (ty : Ty) (v : Value) : String := ty.text ++ " " ++ v.text

/-- A label as a branch target. -/
def Key.target (k : Key) : String := "label %" ++ k.text

/-- An instruction without its result. -/
def Instr.text : Instr → String
  | .binop op ty l r => op.name ++ " " ++ l.typed ty ++ ", " ++ r.text
  | .icmp c ty l r => "icmp " ++ c.name ++ " " ++ l.typed ty ++ ", " ++ r.text
  | .alloca ty => "alloca " ++ ty.text
  | .load ty p => "load " ++ ty.text ++ ", " ++ p.typed (.ptr ty)
  | .store ty v p => "store " ++ v.typed ty ++ ", " ++ p.typed (.ptr ty)
  | .call ret f args =>
    "call " ++ ret.text ++ " " ++ f.text ++ "(" ++
      ", ".intercalate (args.map fun (t, v) => v.typed t) ++ ")"
  | .foreign => "<invalid instr>"

/-- An item in instruction position. -/
def Item.codeText : Item → String
  | .instr i => i.text
  | .term _ => "<invalid instr>"

/-- A line of code. -/
def codeLine (i : InstrId) (item : Item) : String :=
  match i with
  | .result k => "  %" ++ k.text ++ " = " ++ item.codeText
  | .void _ => "  " ++ item.codeText

/-- A terminator. -/
def Term.text : Term → String
  | .br target => "br " ++ target.target
  | .condBr c t e => "br " ++ c.typed .i1 ++ ", " ++ t.target ++ ", " ++ e.target
  | .retVoid => "ret void"
  | .ret ty v => "ret " ++ v.typed ty
  | .foreign => "<invalid terminator>"

/-- The line of an item in terminator position. -/
def Item.termLine : Item → String
  | .term t => "  " ++ t.text
  | .instr _ => "  <invalid terminator>"

/-- Lines one below the other. -/
def joinLines (lines : List String) : String := "\n".intercalate lines

/-- A block under its label. -/
def Block.text (b : Block) : String :=
  joinLines ((b.label.text ++ ":") :: b.code.map (fun (i, item) => codeLine i item) ++
    [b.term.2.termLine])

/-- Blocks one below the other. -/
def blocksText (bs : List Block) : String := joinLines (bs.map Block.text)

/-- A definition; parameters without a type, or types without a parameter, are left out. -/
def Definition.text (d : Definition) : String :=
  let params := d.type.args.zip d.params |>.map fun (t, p) => t.text ++ " %" ++ p.text
  let header := "define " ++ d.type.ret.text ++ " @" ++ d.name.text ++
    "(" ++ ", ".intercalate params ++ ") \x7b"
  joinLines [header, blocksText d.blocks, "\x7d"]

/-- A declaration. -/
def Declaration.text (d : Declaration) : String :=
  "declare " ++ d.type.ret.text ++ " @" ++ d.name.text ++
    "(" ++ ", ".intercalate (d.type.args.map Ty.text) ++ ")"

/-- A member of a program. -/
def Entity.text : Entity → String
  | .declare d => d.text
  | .define d => d.text

/-- A whole program, its members apart by an empty line. -/
def Program.text (p : Program) : String := "\n\n".intercalate (p.entities.map Entity.text)

/-- The values of memory with their addresses. -/
def memoryText (memory : List Value) : String :=
  let cells := memory.zipIdx.map fun (v, n) => toString n ++ ": " ++ v.text
  "[" ++ ", ".intercalate cells ++ "]"

end ImpSSA.IR
