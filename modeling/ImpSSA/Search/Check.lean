import ImpSSA.Agreement
import ImpSSA.Search.Generate
import ImpSSA.Search.Shrink

/-!
# Searching for counterexamples

`minimize` replaces a failing command by a failing reduction of it as long as there is one and the
budget of attempts lasts; `quickCheck` tries random commands and minimizes the first that fails.
-/

namespace ImpSSA.Search

open Agreement

/-- What is tested of commands. -/
abbrev Property := Node → Except Abort Report

/-- What ends a search without an answer. -/
inductive SearchError where
  | property (e : Abort)
  | shrink (e : ShrinkError)
  | choice (e : ChoiceError)
  deriving DecidableEq, Repr

/-- A command with its report, and the number of attempts made to get there. -/
structure Minimal where
  node : Node
  report : Report
  attempts : Nat
  deriving DecidableEq, Repr

/-- Tries the reductions `untried` of `best` with at most `budget` attempts, after `best.attempts`
earlier ones; the first that fails takes its place. -/
def descend (prop : Property) (budget : Nat) (best : Minimal) (untried : List Node) :
    Except SearchError Minimal :=
  match budget, untried with
  | 0, _ | _, [] => pure best
  | budget + 1, c :: cs => do
    let report ← (prop c).mapError .property
    let attempts := best.attempts + 1
    if report.passed then
      descend prop budget { best with attempts } cs
    else if budget = 0 then
      pure ⟨c, report, attempts⟩
    else
      let next ← c.shrink.mapError .shrink
      descend prop budget ⟨c, report, attempts⟩ next

/-- A command that fails if `c` does and is reached from it by at most `budget` attempts. -/
def minimize (prop : Property) (c : Node) (report : Report) (budget : Int) :
    Except SearchError Minimal :=
  if budget ≤ 0 then pure ⟨c, report, 0⟩
  else do
    let untried ← c.shrink.mapError .shrink
    descend prop budget.toNat ⟨c, report, 0⟩ untried

/-- The failing command and what it was minimized to. -/
structure Counterexample where
  failure : Node
  minimal : Minimal
  deriving DecidableEq, Repr

/-- The number of trials, and the counterexample with which the last of them ended. -/
structure CheckReport where
  trials : Int
  counterexample : Option Counterexample
  deriving DecidableEq, Repr

variable {σ : Type} [RandomSource σ]

/-- A random command of a size from one to `size`. -/
def trial (size : Int) : Random σ Node := do
  let n ← between 1 size
  generate .standard .command n

/-- Makes `left` trials after `done` earlier ones. -/
def runTrials (prop : Property) (size budget : Int) :
    (left done : Nat) → σ → Except SearchError (Option (Nat × Counterexample))
  | 0, _, _ => pure none
  | left + 1, done, s =>
    match (trial size).run s with
    | .error e _ => throw (.choice e)
    | .ok c s => do
      let report ← (prop c).mapError .property
      if report.passed then
        runTrials prop size budget left (done + 1) s
      else
        let minimal ← minimize prop c report budget
        pure (some (done + 1, ⟨c, minimal⟩))

/-- Tries random commands until one fails. -/
def quickCheck (prop : Property) (trials size budget : Int) (s : σ) :
    Except SearchError CheckReport := do
  match ← runTrials prop size budget trials.toNat 0 s with
  | some (n, found) => pure ⟨n, some found⟩
  | none => pure ⟨trials, none⟩

end ImpSSA.Search
