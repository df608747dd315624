import ImpSSA.Node.Basic
import ImpSSA.Random.Source

/-!
# Random commands

Commands and expressions of a given size over given variables. The size is halved on the way down,
so a tree has about as many nodes as asked for; how the choices fall is up to the random source.
-/

namespace ImpSSA.Search

/-- What random trees are made of. -/
structure Vocabulary where
  names : List String
  /-- The largest absolute value of a literal. -/
  maxLiteral : Nat

/-- The vocabulary unless another is asked for. -/
def Vocabulary.standard : Vocabulary := ⟨["W", "X", "Y", "Z"], 10⟩

/-- Nothing was there to choose from: no member of a list, or no number from `first` to `last`. -/
inductive ChoiceError where
  | empty
  | emptyRange (first last : Int)
  deriving DecidableEq, Repr

/-- What is reported of an error; a range is given by where it starts, where it has ended and how many
numbers it would have. -/
def ChoiceError.message : ChoiceError → String
  | .empty => "Cannot choose from an empty sequence"
  | .emptyRange first last =>
    "empty range for randrange() (" ++ toString first ++ ", " ++ toString (last + 1) ++ ", "
      ++ toString (last + 1 - first) ++ ")"

variable {σ : Type} [RandomSource σ]

/-- Random computations; what was drawn before an error stays drawn. -/
abbrev Random (σ : Type) := EStateM ChoiceError σ

/-- Whether an event with a chance of `percent` in a hundred happens. -/
def chance (percent : Nat) : Random σ Bool := modifyGet (RandomSource.chance percent)

/-- A number that is at most `n`. -/
def upTo (n : Nat) : Random σ (Fin (n + 1)) := modifyGet (RandomSource.upTo n)

/-- A number from `first` to `last`. -/
def between (first last : Int) : Random σ Int :=
  if last < first then throw (.emptyRange first last)
  else do
    let n ← upTo (last - first).toNat
    pure (first + n.val)

/-- A member of a list. -/
def choose {α : Type} : List α → Random σ α
  | [] => throw .empty
  | x :: xs => do
    let i ← upTo xs.length
    pure ((x :: xs).get i)

/-- A literal or a variable. -/
def leaf (v : Vocabulary) : Random σ Node := do
  if ← chance 50 then
    let n ← between (-v.maxLiteral) v.maxLiteral
    pure (.num n)
  else
    let x ← choose v.names
    pure (.var x)

/-- An arithmetic expression. -/
def arith (v : Vocabulary) (size : Nat) : Random σ Node := do
  if size ≤ 1 then leaf v
  else if ← chance 25 then leaf v
  else
    let op ← choose [ArithOp.plus, .minus, .times]
    let l ← arith v (size / 2)
    let r ← arith v (size / 2)
    pure (.arith op l r)
termination_by size

/-- A boolean expression. -/
def bool (v : Vocabulary) (size : Nat) : Random σ Node := do
  if size ≤ 1 then
    let b ← choose [true, false]
    pure (.bool b)
  else
    match ← upTo 3 with
    | 0 => return .cmp .eq (← arith v (size / 2)) (← arith v (size / 2))
    | 1 => return .cmp .le (← arith v (size / 2)) (← arith v (size / 2))
    | 2 => return .not (← bool v (size - 1))
    | 3 => return .and (← bool v (size / 2)) (← bool v (size / 2))
termination_by size

/-- A command. -/
def command (v : Vocabulary) (size : Nat) : Random σ Node := do
  if size ≤ 1 then
    if ← chance 20 then pure .skip
    else
      let x ← choose v.names
      return .assign x (← arith v 2)
  else
    match ← upTo 3 with
    | 0 =>
      let x ← choose v.names
      return .assign x (← arith v size)
    | 1 => return .seq (← command v (size / 2)) (← command v (size / 2))
    | 2 => return .cond (← bool v (size / 2)) (← command v (size / 2)) (← command v (size / 2))
    | 3 => return .loop (← bool v (size / 2)) (← command v (size / 2))
termination_by size

/-- A tree of a category; a size below one counts as one. -/
def generate (v : Vocabulary) (k : Category) (size : Int) : Random σ Node :=
  match k with
  | .arith => arith v size.toNat
  | .bool => bool v size.toNat
  | .command => command v size.toNat

end ImpSSA.Search
