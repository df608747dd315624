import ImpSSA.Text.Printable

/-!
# Quoted text and record descriptions

Messages show a value by its description: a record is its name followed by its named fields in
parentheses, and a text is quoted. `quote` picks single quotes unless the text holds a single quote
and no double one, and escapes whatever would not print.
-/

namespace ImpSSA.Text

/-- The number `n` in at least `width` hexadecimal digits. -/
def hex (width n : Nat) : List Char := (Nat.toDigits 16 n).leftpad width '0'

/-- A character as it stands inside quotes `q`. -/
def escape (q c : Char) : List Char :=
  if c = '\\' then ['\\', '\\']
  else if c = q then ['\\', q]
  else if c = '\n' then ['\\', 'n']
  else if c = '\t' then ['\\', 't']
  else if c = '\r' then ['\\', 'r']
  else if isPrintable c then [c]
  else if c.toNat < 0x100 then '\\' :: 'x' :: hex 2 c.toNat
  else if c.toNat < 0x10000 then '\\' :: 'u' :: hex 4 c.toNat
  else '\\' :: 'U' :: hex 8 c.toNat

/-- The quote that encloses `cs`. -/
def quoteMark (cs : List Char) : Char :=
  if cs.contains '\'' && !cs.contains '"' then '"' else '\''

/-- Text in quotes. -/
def quote (s : String) : String :=
  let q := quoteMark s.toList
  String.ofList (q :: s.toList.flatMap (escape q) ++ [q])

/-- A record with its fields in order. -/
def record (name : String) (fields : List (String × String)) : String :=
  name ++ "(" ++ ", ".intercalate (fields.map fun (field, value) => field ++ "=" ++ value) ++ ")"

/-- A sequence of descriptions in parentheses; a single one is followed by a comma. -/
def sequence : List String → String
  | [x] => "(" ++ x ++ ",)"
  | xs => "(" ++ ", ".intercalate xs ++ ")"

end ImpSSA.Text
