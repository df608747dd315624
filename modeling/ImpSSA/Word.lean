/-!
# Two's-complement words

Integers are unbounded; `wrap w` brings one back into the range of `w`-bit signed words, and the
bitwise operations act on the infinite two's-complement expansion of their arguments.
-/

namespace ImpSSA

namespace Bits

/-- Bits of `m` that are not bits of `n`. -/
def without (m n : Nat) : Nat := m ^^^ (m &&& n)

/-- Bitwise conjunction; `-[n+1]` has the complement of the bits of `n`. -/
def and : Int → Int → Int
  | .ofNat m, .ofNat n => .ofNat (m &&& n)
  | .ofNat m, .negSucc n => .ofNat (without m n)
  | .negSucc m, .ofNat n => .ofNat (without n m)
  | .negSucc m, .negSucc n => .negSucc (m ||| n)

/-- Bitwise disjunction. -/
def or : Int → Int → Int
  | .ofNat m, .ofNat n => .ofNat (m ||| n)
  | .ofNat m, .negSucc n => .negSucc (without n m)
  | .negSucc m, .ofNat n => .negSucc (without m n)
  | .negSucc m, .negSucc n => .negSucc (m &&& n)

/-- Bitwise exclusive disjunction. -/
def xor : Int → Int → Int
  | .ofNat m, .ofNat n => .ofNat (m ^^^ n)
  | .ofNat m, .negSucc n => .negSucc (m ^^^ n)
  | .negSucc m, .ofNat n => .negSucc (m ^^^ n)
  | .negSucc m, .negSucc n => .ofNat (m ^^^ n)

/-- The lowest `w` bits of `n` as a number that is not negative. -/
def low (w : Nat) (n : Int) : Int := and n (.ofNat (1 <<< w - 1))

end Bits

/-- The representative of `n` modulo `2 ^ w` in the range `-2 ^ (w - 1) ≤ · < 2 ^ (w - 1)`: the lowest
bits of `n`, less `2 ^ w` if the highest of them is set. -/
def wrap (w : Nat) (n : Int) : Int :=
  if Bits.low w n >>> (w - 1) = 0 then Bits.low w n else Bits.low w n - .ofNat (1 <<< w)

/-- Wrapping to the 64-bit words that programs compute with. -/
def wrap64 (n : Int) : Int := wrap 64 n

end ImpSSA
