import ImpSSA.Table

/-!
# Names of one function

A scope keeps the names in use. A name that is taken is asked for once more with a number behind it,
counting up separately for each name until the result is free. The empty name is always taken.
-/

namespace ImpSSA.Assembly

/-- The names in use, and the last number put behind each name. -/
structure Scope where
  used : List String
  counters : Table String Nat

/-- The scope of a function without names. -/
def Scope.start : Scope := ⟨[""], ∅⟩

/-- A name with a number behind it. -/
def numbered (base : String) (n : Nat) : String := base ++ "." ++ toString n

/-- The first number from `n` on that makes `base` a free name, after at most `tries` that do not. -/
def firstFree (used : List String) (base : String) : (tries n : Nat) → Nat
  | 0, n => n
  | tries + 1, n => if used.contains (numbered base n) then firstFree used base tries (n + 1) else n

/-- Takes the name `base`, numbered if it is in use. There are as many tries as names in use, so one
number is free. -/
def Scope.register (s : Scope) (base : String) : String × Scope :=
  if s.used.contains base then
    let n := firstFree s.used base s.used.length ((s.counters.get? base).getD 0 + 1)
    (numbered base n, ⟨numbered base n :: s.used, s.counters.insert base n⟩)
  else
    (base, { s with used := base :: s.used })

/-- Takes names in order. -/
def Scope.registerAll (s : Scope) : List String → List String × Scope
  | [] => ([], s)
  | base :: rest =>
    let (name, s) := s.register base
    let (names, s) := s.registerAll rest
    (name :: names, s)

end ImpSSA.Assembly
