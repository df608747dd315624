import Mathlib.Algebra.Order.Ring.Nat
import ImpSSA.Search.Halve

/-!
# The size of a half

Rounding to 53 significant bits moves a number by at most half of the spacing of such numbers around it
(`two_mul_nearest_le`), and the spacing is no more than the number itself. So a half is smaller than
what was halved however it was rounded (`natAbs_halve_lt`), and rounding reaches `2 ^ 1025`, where there
is no half, exactly from the middle between it and the 53-bit number below on (`halve_eq_none`).
-/

namespace ImpSSA.Search

/-! ## Rounding a quotient -/

/-- A rounded quotient is not below the quotient. -/
lemma div_le_roundDiv (n d : Nat) : n / d ≤ roundDiv n d := by
  simp only [roundDiv]
  split_ifs <;> omega

/-- Rounding up adds at most half of the divisor. -/
lemma two_mul_roundDiv_le (n d : Nat) : 2 * (roundDiv n d * d) ≤ 2 * n + d := by
  have parts : n / d * d + n % d = n := Nat.div_add_mod' n d
  have next : (n / d + 1) * d = n / d * d + d := Nat.succ_mul _ _
  simp only [roundDiv]
  split_ifs <;> omega

/-- From the middle behind an odd quotient on, a quotient is rounded up. -/
lemma roundDiv_of_odd {n d : Nat} (odd : n / d % 2 = 1) (half : d ≤ 2 * (n % d)) :
    roundDiv n d = n / d + 1 := by
  simp only [roundDiv]
  split_ifs <;> omega

/-! ## Rounding to 53 significant bits -/

/-- The distance of the numbers with 53 significant bits around `n`. -/
def spacing (n : Nat) : Nat := 2 ^ (n.log2 - 52)

/-- The nearest number with few bits is a multiple of the spacing. -/
lemma nearest_eq (n : Nat) : nearest n = roundDiv n (spacing n) * spacing n := by
  simp only [nearest, spacing, Nat.one_shiftLeft]

/-- The numbers with few bits are no further apart than the number itself. -/
lemma spacing_le {n : Nat} (ne : n ≠ 0) : spacing n ≤ n :=
  calc spacing n
    _ ≤ 2 ^ n.log2 := Nat.pow_le_pow_right (by decide) (Nat.sub_le _ _)
    _ ≤ n := Nat.log2_self_le ne

/-- Rounding adds at most half of the spacing. -/
lemma two_mul_nearest_le (n : Nat) : 2 * nearest n ≤ 2 * n + spacing n := by
  rw [nearest_eq]
  exact two_mul_roundDiv_le n (spacing n)

/-- Rounding does not go below the power of two below. -/
lemma two_pow_log2_le_nearest {n : Nat} (large : 52 ≤ n.log2) : 2 ^ n.log2 ≤ nearest n := by
  have ne : n ≠ 0 := by
    rintro rfl
    simp at large
  have bits : 2 ^ n.log2 = 2 ^ 52 * spacing n := by
    rw [spacing, ← Nat.pow_add, Nat.add_sub_cancel' large]
  have quotient : 2 ^ 52 ≤ n / spacing n := by
    apply (Nat.le_div_iff_mul_le (Nat.two_pow_pos _)).2
    exact bits ▸ Nat.log2_self_le ne
  rw [bits, nearest_eq]
  exact Nat.mul_le_mul_right _ (Nat.le_trans quotient (div_le_roundDiv n _))

/-- Half of the nearest number with few bits is below the number. -/
lemma nearest_half_lt {n : Nat} (ne : n ≠ 0) : nearest n / 2 < n := by
  have up := two_mul_nearest_le n
  have space := spacing_le ne
  omega

/-- Numbers are rounded up to a power of two, or beyond, exactly from the middle between it and the number
with 53 significant bits below it on. -/
lemma two_pow_le_nearest_iff (n e : Nat) : 2 ^ (e + 54) ≤ nearest n ↔ 2 ^ (e + 54) - 2 ^ e ≤ n := by
  have top : 2 ^ (e + 54) = 2 ^ 54 * 2 ^ e := by rw [Nat.pow_add, Nat.mul_comm]
  have gap : 2 ^ (e + 1) = 2 * 2 ^ e := Nat.pow_succ'
  have pos : 0 < 2 ^ e := Nat.two_pow_pos e
  constructor
  · intro reaches
    by_contra below
    have small : n.log2 ≤ e + 53 := by
      by_cases zero : n = 0
      · rw [zero, Nat.log2_zero]
        exact Nat.zero_le _
      · have lt : n.log2 < e + 54 := (Nat.log2_lt zero).2 (by omega)
        exact Nat.le_of_lt_succ lt
    have space : spacing n ≤ 2 ^ (e + 1) := Nat.pow_le_pow_right (by decide) (by omega)
    have up := two_mul_nearest_le n
    omega
  · intro above
    have ne : n ≠ 0 := by omega
    by_cases beyond : 2 ^ (e + 54) ≤ n
    · have log : e + 54 ≤ n.log2 := (Nat.le_log2 ne).2 beyond
      calc 2 ^ (e + 54)
        _ ≤ 2 ^ n.log2 := Nat.pow_le_pow_right (by decide) log
        _ ≤ nearest n := two_pow_log2_le_nearest (by omega)
    · -- the numbers with 53 significant bits are as far apart as the power of two from the one below
      have half : 2 ^ (e + 53) = 2 ^ 53 * 2 ^ e := by rw [Nat.pow_add, Nat.mul_comm]
      have log : n.log2 = e + 53 := (Nat.log2_eq_iff ne).2 ⟨by omega, by omega⟩
      have space : spacing n = 2 ^ (e + 1) := by
        rw [spacing, log]
        rfl
      have quotient : n / spacing n = 9007199254740991 := by
        apply Nat.div_eq_of_lt_le <;> omega
      have parts := Nat.div_add_mod' n (spacing n)
      rw [quotient] at parts
      have up : roundDiv n (spacing n) = 9007199254740992 := by
        rw [roundDiv_of_odd (by rw [quotient]) (by omega), quotient]
      rw [nearest_eq, up]
      omega

/-! ## Halves -/

/-- There is no half from the middle below `2 ^ 1025` on. -/
lemma halve_eq_none {v : Int} : halve v = none ↔ 2 ^ 1025 - 2 ^ 971 ≤ v.natAbs := by
  have shift : ∀ e : Nat, 1 <<< e = 2 ^ e := Nat.one_shiftLeft
  have threshold := two_pow_le_nearest_iff v.natAbs 971
  simp only [Nat.reduceAdd] at threshold
  rw [← threshold, halve, shift]
  split_ifs with large
  · exact iff_of_true rfl large
  · exact iff_of_false (by simp) large

/-- A number without a half is neither zero nor a unit. -/
lemma one_lt_natAbs_of_halve {v : Int} (none : halve v = none) : 1 < v.natAbs := by
  have large : 1 < 2 ^ 1025 - 2 ^ 971 := by decide +kernel
  exact large.trans_le (halve_eq_none.1 none)

/-- A half is smaller than what was halved. -/
lemma natAbs_halve_lt {v h : Int} (half : halve v = some h) (ne : v ≠ 0) : h.natAbs < v.natAbs := by
  simp only [halve] at half
  split_ifs at half
  cases half
  rw [Int.natAbs_mul, Int.natAbs_sign_of_ne_zero ne, Nat.one_mul, Int.natAbs_natCast]
  exact nearest_half_lt (Int.natAbs_ne_zero.2 ne)

end ImpSSA.Search
