/-!
# Halves of integers

`halve` is the half of an integer as a double-precision number, rounded toward zero: exact up to
`2 ^ 53`, and beyond that the nearest number with 53 significant bits, a tie going to the even one.
-/

namespace ImpSSA.Search

/-- The quotient `n / d` rounded to the nearest integer, a tie going to the even one. -/
def roundDiv (n d : Nat) : Nat :=
  let q := n / d
  let r := n % d
  if 2 * r < d then q
  else if d < 2 * r then q + 1
  else if q % 2 = 0 then q else q + 1

/-- The number with at most 53 significant bits that is nearest to `n`. -/
def nearest (n : Nat) : Nat :=
  let unit := 1 <<< (n.log2 - 52)
  roundDiv n unit * unit

/-- Half of an integer; none if its magnitude has no double-precision number. -/
def halve (v : Int) : Option Int :=
  let m := nearest v.natAbs
  if 1 <<< 1025 ≤ m then none
  else some (v.sign * (m / 2 : Nat))

end ImpSSA.Search
