import ImpSSA.Assembly.Module

/-!
# Assembly text

The text of a module: a head with its name, then its functions apart by empty lines. Names are
quoted except for simple labels.
-/

namespace ImpSSA.Assembly

mutual

/-- A type. -/
def Ty.text : Ty → String
  | .int width => "i" ++ toString width
  | .ptr t => t.text ++ "*"
  | .void => "void"
  | .fn ret args => ret.text ++ " (" ++ ", ".intercalate (Ty.texts args) ++ ")"

/-- Some types. -/
def Ty.texts : List Ty → List String
  | [] => []
  | t :: ts => t.text :: Ty.texts ts

end

/-- A character of a quoted name. -/
def escapeChar (c : Char) : List Char :=
  if c = '\\' then ['\\', '5', 'c']
  else if c = '"' then ['\\', '2', '2']
  else [c]

/-- A name in quotes. -/
def quoteName (s : String) : String :=
  "\"" ++ String.ofList (s.toList.flatMap escapeChar) ++ "\""

/-- A name of a function's own. -/
def localName (s : String) : String := "%" ++ quoteName s

/-- A name of the module's. -/
def globalName (s : String) : String := "@" ++ quoteName s

/-- Characters that start a simple label. -/
def isLabelStart (c : Char) : Bool :=
  ('a' ≤ c && c ≤ 'z') || ('A' ≤ c && c ≤ 'Z') || c = '-' || c = '$' || c = '.' || c = '_'

/-- Whether a label needs no quotes. -/
def isSimpleLabel : List Char → Bool
  | [] => false
  | c :: cs => isLabelStart c && cs.all fun c => isLabelStart c || ('0' ≤ c && c ≤ '9')

/-- A label in front of its block. -/
def labelText (s : String) : String := if isSimpleLabel s.toList then s else quoteName s

/-- A constant of a type. -/
def Constant.text : Constant → Ty → String
  | .int n, _ => toString n
  | .zero, .int _ => "0"
  | .zero, .ptr _ => "null"
  | .zero, _ => "zeroinitializer"
  | .undef, _ => "undef"

/-- An operand without its type. -/
def Operand.text : Operand → String
  | .constant ty c => c.text ty
  | .register _ name => localName name
  | .function name _ _ => globalName name

/-- An operand after its type. -/
def Operand.typed (x : Operand) : String := x.type.text ++ " " ++ x.text

/-- Operands after their types. -/
def typedOperands (xs : List Operand) : String := ", ".intercalate (xs.map Operand.typed)

/-- A branch target. -/
def targetText (name : String) : String := "label " ++ localName name

/-- An instruction without its result. -/
def Action.text : Action → String
  | .binary op l r => op.name ++ " " ++ l.typed ++ ", " ++ r.text
  | .icmp c l r => "icmp " ++ c.name ++ " " ++ l.typed ++ ", " ++ r.text
  | .alloca ty => "alloca " ++ ty.text
  | .load ty p => "load " ++ ty.text ++ ", " ++ p.typed
  | .store v p => "store " ++ v.typed ++ ", " ++ p.typed
  | .call result f args => "call " ++ result.text ++ " " ++ f.text ++ "(" ++ typedOperands args ++ ")"
  | .gep source base [] => "getelementptr " ++ source.text ++ ", " ++ base.typed ++ ","
  | .gep source base indices =>
    "getelementptr " ++ source.text ++ ", " ++ base.typed ++ ", " ++ typedOperands indices
  | .br target => "br " ++ targetText target
  | .condBr c t e => "br " ++ c.typed ++ ", " ++ targetText t ++ ", " ++ targetText e
  | .retVoid => "ret void"
  | .ret v => "ret " ++ v.typed

/-- An instruction; a void result is not shown. -/
def Instr.text (i : Instr) : String :=
  if i.type = .void then i.action.text else localName i.name ++ " = " ++ i.action.text

/-- A text as a line. -/
def line (s : String) : String := s ++ "\n"

/-- A block under its label. -/
def Block.text (b : Block) : String :=
  line (labelText b.name ++ ":") ++ String.join (b.code.map fun i => line ("  " ++ i.text))

/-- A function. -/
def Function.text (f : Function) : String :=
  let params := f.params.map fun (t, name) => t.text ++ " " ++ localName name
  let header := f.ret.text ++ " " ++ globalName f.name ++ "(" ++ ", ".intercalate params ++ ")"
  match f.blocks with
  | [] => line ("declare " ++ header)
  | blocks =>
    line ("define " ++ header) ++ line "\x7b" ++ String.join (blocks.map Block.text) ++ line "\x7d"

/-- A module. -/
def Module.text (m : Module) : String :=
  "\n".intercalate
    (["; ModuleID = \"" ++ m.name ++ "\"", "target triple = \"unknown-unknown-unknown\"",
      "target datalayout = \"\"", ""] ++ m.functions.map Function.text)

end ImpSSA.Assembly
