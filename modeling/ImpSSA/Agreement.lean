import ImpSSA.Node.Render
import ImpSSA.Node.Eval
import ImpSSA.IR.Verify
import ImpSSA.CodeGen.Compile
import ImpSSA.Machine.Run

/-!
# Agreement of source and compiled code

`check` compiles a command, runs the compiled code and the command itself and compares the values of
the variables at the end. Running out of fuel decides nothing: it passes when both sides do, and
when only one does unless fuel is taken strictly.
-/

namespace ImpSSA.Agreement

open IR

/-- Fuel for both sides, the name of the compiled function, and whether fuel is taken strictly. -/
structure Config where
  sourceFuel : Int
  compiledFuel : Int
  entry : Key
  strict : Bool

/-- The configuration unless another is asked for. -/
def Config.standard : Config := ⟨200, 20000, defaultEntry, false⟩

/-- What a check finds. -/
inductive Verdict where
  | agree
  | mismatch
  | bothOutOfFuel
  | sourceOutOfFuel
  | compiledOutOfFuel
  | compiledFault
  | compileError
  deriving DecidableEq, Repr

/-- A verdict as it is written. -/
def Verdict.text : Verdict → String
  | .agree => "agree"
  | .mismatch => "mismatch"
  | .bothOutOfFuel => "both out of fuel"
  | .sourceOutOfFuel => "source out of fuel"
  | .compiledOutOfFuel => "compiled out of fuel"
  | .compiledFault => "compiled fault"
  | .compileError => "compile error"

/-- Whether a verdict decides nothing. -/
def Verdict.inconclusive : Verdict → Bool
  | .bothOutOfFuel | .sourceOutOfFuel | .compiledOutOfFuel => true
  | .agree | .mismatch | .compiledFault | .compileError => false

/-- A verdict, whether it passes, and what led to it. -/
structure Report where
  verdict : Verdict
  passed : Bool
  diagnostic : String
  deriving DecidableEq, Repr

/-- What ends a check without a report. -/
inductive Abort where
  | entry (e : Machine.EntryError)
  | crash (c : Machine.Crash)
  | misplaced (e : Node.Misplaced)
  deriving DecidableEq, Repr

/-- A compiler under test: a program, or why there is none. -/
abbrev Compiler := Node → Key → Except String Program

/-- The compiler of this library. -/
def compiler : Compiler := fun c entry =>
  (c.compile entry false none).mapError CompileError.message

/-- The integer that a value is. -/
def intOf? : Value → Option Int
  | .int n => some n
  | _ => none

/-- Whether the first cells of memory, in reverse, are the values of `names`. -/
def memoryMatches (names : List String) (σ : Store) (memory : List Value) : Bool :=
  (memory.take names.length).reverse.map intOf? = names.map fun x => some (σ.value x)

/-- The values of `names` in braces. -/
def storeText (names : List String) (σ : Store) : String :=
  "\x7b" ++ ", ".intercalate (names.map fun x => x ++ "=" ++ toString (σ.value x)) ++ "\x7d"

/-- How the compiled code ended. -/
def runLine (r : Machine.Run) : List String :=
  match r.result with
  | .finished memory _ => ["compiled memory: " ++ memoryText memory]
  | .failed f => ["compiled fault: " ++ f.message]
  | .outOfFuel => ["compiled out of fuel after " ++ toString r.steps ++ " steps"]
  | .crashed _ => []

/-- How the source ended, if it did. -/
def sourceLine (names : List String) : Node.Outcome → List String
  | .final σ _ => ["source state: " ++ storeText names σ]
  | .diverged _ => []

/-- The line that shows the command. -/
def programLine (c : Node) : Except Node.Misplaced String := do
  let text ← c.render
  pure ("program: " ++ text)

/-- The verdict on the two ends. -/
def judge (names : List String) (compiled : Machine.Result) (source : Node.Outcome) : Verdict :=
  match compiled, source with
  | .failed _, _ | .crashed _, _ => .compiledFault
  | .outOfFuel, .diverged _ => .bothOutOfFuel
  | .outOfFuel, .final .. => .compiledOutOfFuel
  | .finished .., .diverged _ => .sourceOutOfFuel
  | .finished memory _, .final σ _ => if memoryMatches names σ memory then .agree else .mismatch

/-- Whether a verdict passes. -/
def Verdict.passes (strict : Bool) : Verdict → Bool
  | .agree | .bothOutOfFuel => true
  | .sourceOutOfFuel | .compiledOutOfFuel => !strict
  | .mismatch | .compiledFault | .compileError => false

/-- The program of a compiler, if it is well formed. -/
def verifiedProgram (compile : Compiler) (c : Node) (entry : Key) : Except String Program := do
  let p ← compile c entry
  p.verify.mapError VerifyError.message
  pure p

/-- Compares the two ends of a command started with the values `initial`. -/
def check (compile : Compiler) (cfg : Config) (initial : Store) (c : Node) : Except Abort Report := do
  let c := c.seeded initial
  let names := c.vars
  match verifiedProgram compile c cfg.entry with
  | .error message => do
    let line ← (programLine c).mapError .misplaced
    pure ⟨.compileError, false, "compile error: " ++ message ++ "\n" ++ line⟩
  | .ok p => do
    let compiled ← (Machine.run p cfg.entry cfg.compiledFuel).mapError .entry
    if let .crashed crash := compiled.result then
      throw (.crash crash)
    let source ← (c.run cfg.sourceFuel ∅).mapError .misplaced
    let line ← (programLine c).mapError .misplaced
    let verdict := judge names compiled.result source
    let diagnostic := joinLines
      (line :: "compiled code:" :: p.text :: runLine compiled ++ sourceLine names source)
    pure ⟨verdict, verdict.passes cfg.strict, diagnostic⟩

end ImpSSA.Agreement
