import ImpSSA.CodeGen.Lower

/-!
# Compilation

`Node.compile` turns a command into a program with one definition without parameters. Its storage is
the free variables of the command, or exactly the declared names; with `prints` every stored value
is handed to an external function at the end.
-/

namespace ImpSSA

open IR

/-- The name of the compiled function unless another is asked for. -/
def defaultEntry : Key := .named "imp_command"

/-- The label of the first block. -/
def entryLabel : Key := .anon 0

namespace Node

/-- The names that storage is allocated for, in ascending order. -/
def storage (c : Node) : Option (List String) → List String
  | some declared => sortNames declared
  | none => c.vars

/-- The whole stream of a command. -/
def generate (c : Node) (prints : Bool) (names : List String) : Gen (List Elem) := do
  let ctx ← allocate names
  c.lowerCommand ctx
  if prints then lowerPrints ctx names
  Gen.terminate (.term .retVoid)
  Gen.finish

/-- The definition made of a stream. -/
def define (entry : Key) (elems : List Elem) : Except CompileError Definition := do
  let blocks ← (assemble entryLabel elems).mapError .assembly
  pure ⟨entry, ⟨.void, []⟩, [], blocks⟩

/-- The program of a command. -/
def compile (c : Node) (entry : Key) (prints : Bool) (declared : Option (List String)) :
    Except CompileError Program :=
  match (c.generate prints (c.storage declared)).run .start with
  | .error e _ => throw e
  | .ok elems _ => do
    let d ← define entry elems
    let printer : Entity := .declare ⟨printName, ⟨.void, [.i64]⟩⟩
    pure ⟨if prints then [printer, .define d] else [.define d]⟩

end Node

end ImpSSA
