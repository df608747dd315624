import Mathlib.Algebra.Order.Ring.Int
import Mathlib.Tactic.Lemma
import ImpSSA.Word

/-!
# Words as bit vectors

The word of an integer is the bit vector of its lowest bits. The operations on unbounded integers act on
the words: the bitwise ones do so on every bit of an infinite expansion, of which a word keeps the lowest
(`ofInt_and`, `ofInt_or`, `ofInt_xor`). So a mask of ones leaves the word itself (`low_eq_toNat`), and
`wrap w`, which masks and then takes `2 ^ w` off a number with the highest bit, reads the word as a signed
number (`wrap_eq_toInt`). Integers wrap to the same number exactly if they have the same word
(`wrap_eq_wrap_iff`).
-/

namespace ImpSSA

/-- The number is one of those that signed words of `w` bits stand for. -/
def Fits (w : Nat) (n : Int) : Prop := -2 ^ (w - 1) ≤ n ∧ n < 2 ^ (w - 1)

instance {w : Nat} {n : Int} : Decidable (Fits w n) := inferInstanceAs (Decidable (_ ∧ _))

/-! ## The words of results -/

open BitVec (ofInt_negSucc_eq_not_ofNat)

/-- The word of a difference. -/
lemma ofInt_sub (w : Nat) (m n : Int) :
    BitVec.ofInt w (m - n) = BitVec.ofInt w m - BitVec.ofInt w n := by
  rw [Int.sub_eq_add_neg, BitVec.ofInt_add, BitVec.ofInt_neg, BitVec.sub_eq_add_neg]

/-- Taking bits away is a conjunction with their complement. -/
lemma ofNat_without (w m n : Nat) :
    BitVec.ofNat w (Bits.without m n) = BitVec.ofNat w m &&& ~~~BitVec.ofNat w n := by
  rw [Bits.without, BitVec.ofNat_xor, BitVec.ofNat_and]
  ext i lt
  simp only [BitVec.getElem_xor, BitVec.getElem_and, BitVec.getElem_not]
  cases (BitVec.ofNat w m)[i] <;> simp

/-- The word of a natural number. -/
lemma ofInt_ofNat (w n : Nat) : BitVec.ofInt w (.ofNat n) = BitVec.ofNat w n := rfl

/-- The word of a conjunction, with a case for the signs of the operands. -/
lemma ofInt_and (w : Nat) (m n : Int) :
    BitVec.ofInt w (Bits.and m n) = BitVec.ofInt w m &&& BitVec.ofInt w n := by
  cases m with
  | ofNat m =>
    cases n with
    | ofNat n => exact BitVec.ofNat_and
    | negSucc n =>
      rw [Bits.and, ofInt_ofNat, ofInt_ofNat, ofInt_negSucc_eq_not_ofNat, ofNat_without]
  | negSucc m =>
    cases n with
    | ofNat n =>
      rw [Bits.and, ofInt_ofNat, ofInt_ofNat, ofInt_negSucc_eq_not_ofNat, ofNat_without,
        BitVec.and_comm]
    | negSucc n =>
      rw [Bits.and, ofInt_negSucc_eq_not_ofNat, ofInt_negSucc_eq_not_ofNat,
        ofInt_negSucc_eq_not_ofNat, BitVec.ofNat_or, BitVec.not_or]

/-- The word of a disjunction. -/
lemma ofInt_or (w : Nat) (m n : Int) :
    BitVec.ofInt w (Bits.or m n) = BitVec.ofInt w m ||| BitVec.ofInt w n := by
  cases m with
  | ofNat m =>
    cases n with
    | ofNat n => exact BitVec.ofNat_or
    | negSucc n =>
      rw [Bits.or, ofInt_ofNat, ofInt_negSucc_eq_not_ofNat, ofInt_negSucc_eq_not_ofNat,
        ofNat_without, BitVec.not_and, BitVec.not_not, BitVec.or_comm]
  | negSucc m =>
    cases n with
    | ofNat n =>
      rw [Bits.or, ofInt_ofNat, ofInt_negSucc_eq_not_ofNat, ofInt_negSucc_eq_not_ofNat,
        ofNat_without, BitVec.not_and, BitVec.not_not]
    | negSucc n =>
      rw [Bits.or, ofInt_negSucc_eq_not_ofNat, ofInt_negSucc_eq_not_ofNat,
        ofInt_negSucc_eq_not_ofNat, BitVec.ofNat_and, BitVec.not_and]

/-- The word of an exclusive disjunction. -/
lemma ofInt_xor (w : Nat) (m n : Int) :
    BitVec.ofInt w (Bits.xor m n) = BitVec.ofInt w m ^^^ BitVec.ofInt w n := by
  cases m with
  | ofNat m =>
    cases n with
    | ofNat n => exact BitVec.ofNat_xor
    | negSucc n =>
      rw [Bits.xor, ofInt_ofNat, ofInt_negSucc_eq_not_ofNat, ofInt_negSucc_eq_not_ofNat,
        BitVec.ofNat_xor, BitVec.not_xor_right]
  | negSucc m =>
    cases n with
    | ofNat n =>
      rw [Bits.xor, ofInt_ofNat, ofInt_negSucc_eq_not_ofNat, ofInt_negSucc_eq_not_ofNat,
        BitVec.ofNat_xor, BitVec.not_xor_left]
    | negSucc n =>
      rw [Bits.xor, ofInt_ofNat, ofInt_negSucc_eq_not_ofNat, ofInt_negSucc_eq_not_ofNat,
        BitVec.ofNat_xor, ← BitVec.not_xor_left, ← BitVec.not_xor_right, BitVec.not_not]

/-! ## The lowest bits -/

/-- Taking bits away does not make a number longer. -/
lemma without_lt {w m : Nat} (n : Nat) (lt : m < 2 ^ w) : Bits.without m n < 2 ^ w :=
  Nat.xor_lt_two_pow lt (Nat.and_le_left.trans_lt lt)

/-- The lowest bits of any integer are a natural number. -/
lemma exists_low_eq (w : Nat) (n : Int) : ∃ k < 2 ^ w, Bits.low w n = .ofNat k := by
  have mask : 1 <<< w - 1 < 2 ^ w := by
    rw [Nat.one_shiftLeft]
    exact Nat.sub_one_lt (Nat.two_pow_pos w).ne'
  cases n with
  | ofNat m => exact ⟨_, Nat.and_lt_two_pow m mask, rfl⟩
  | negSucc m => exact ⟨_, without_lt m mask, rfl⟩

/-- The lowest bits are the word, read as a number without a sign. -/
lemma low_eq_toNat (w : Nat) (n : Int) : Bits.low w n = (BitVec.ofInt w n).toNat := by
  obtain ⟨k, lt, eq⟩ := exists_low_eq w n
  have ones : BitVec.ofInt w (.ofNat (1 <<< w - 1)) = BitVec.allOnes w := by
    rw [ofInt_ofNat, Nat.one_shiftLeft]
    exact BitVec.eq_of_toNat_eq (by simp)
  have word : BitVec.ofNat w k = BitVec.ofInt w n := by
    rw [← ofInt_ofNat, ← eq, Bits.low, ofInt_and, ones, BitVec.and_allOnes]
  rw [eq, ← word, BitVec.toNat_ofNat, Nat.mod_eq_of_lt lt]
  rfl

/-- Shifting all but one bit out of a word leaves its highest. -/
lemma shiftRight_eq_zero_iff {w : Nat} (x : BitVec w) : (x.toNat : Int) >>> (w - 1) = 0 ↔ ¬ x.msb = true := by
  rw [BitVec.msb_eq_decide, ← Int.natCast_shiftRight, Int.natCast_eq_zero, Nat.shiftRight_eq_div_pow,
    Nat.div_eq_zero_iff]
  simp

/-! ## Wrapping -/

/-- Wrapping reads the word of a number as a signed one. -/
lemma wrap_eq_toInt (w : Nat) (n : Int) : wrap w n = (BitVec.ofInt w n).toInt := by
  rw [wrap, low_eq_toNat, BitVec.toInt_eq_msb_cond, Nat.one_shiftLeft]
  simp only [shiftRight_eq_zero_iff, ite_not]
  rfl

/-- Wrapping is the balanced remainder. -/
lemma wrap_eq_bmod (w : Nat) (n : Int) : wrap w n = n.bmod (2 ^ w) := by
  rw [wrap_eq_toInt, BitVec.toInt_ofInt]

section
variable {w : Nat} {m n : Int}

/-- Wrapping does not change the word. -/
lemma ofInt_wrap : BitVec.ofInt w (wrap w n) = BitVec.ofInt w n := by
  rw [wrap_eq_toInt, BitVec.ofInt_toInt]

/-- Integers wrap to the same number if they have the same word, and only then. -/
lemma wrap_eq_wrap_iff : wrap w m = wrap w n ↔ BitVec.ofInt w m = BitVec.ofInt w n := by
  rw [wrap_eq_toInt, wrap_eq_toInt, BitVec.toInt_inj]

/-- The signed value of a word fits. -/
lemma fits_toInt (x : BitVec w) : Fits w x.toInt := ⟨x.le_toInt, x.toInt_lt⟩

/-- What was wrapped fits. -/
lemma fits_wrap : Fits w (wrap w n) := by
  rw [wrap_eq_toInt]
  exact fits_toInt _

/-- A number that fits is the signed value of its word. -/
lemma toInt_ofInt_of_fits (pos : 0 < w) (fits : Fits w n) : (BitVec.ofInt w n).toInt = n :=
  BitVec.toInt_ofInt_eq_self pos fits.1 fits.2

/-- A number that fits is not changed by wrapping. -/
lemma wrap_of_fits (pos : 0 < w) (fits : Fits w n) : wrap w n = n := by
  rw [wrap_eq_toInt, toInt_ofInt_of_fits pos fits]

end

end ImpSSA
