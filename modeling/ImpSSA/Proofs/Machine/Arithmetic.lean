import ImpSSA.Machine.Operand
import ImpSSA.Proofs.Word

/-!
# Arithmetic on words

Operators are computed on unbounded integers and wrapped to the width of their type. The words of the
results are those that the operations on bit vectors give (`BinaryOp.onWords`): for all but the
divisions whatever the integers are (`intResult_onWords`), for the divisions if the integers are the
signed values of their words (`wrap_quotient`, `wrap_remainder`). Correcting the sign of the quotient of
the absolute values rounds towards zero (`quotient_eq_tdiv`).
-/

namespace ImpSSA

/-- The operation on words that an operator stands for. An unknown operator stands for none, and is
taken for the constant zero. -/
def IR.BinaryOp.onWords {w : Nat} : BinaryOp → BitVec w → BitVec w → BitVec w
  | .add, x, y => x + y
  | .sub, x, y => x - y
  | .mul, x, y => x * y
  | .sdiv, x, y => x.sdiv y
  | .srem, x, y => x.srem y
  | .and, x, y => x &&& y
  | .or, x, y => x ||| y
  | .xor, x, y => x ^^^ y
  | .unknown _, _, _ => 0

namespace Machine
open IR

section
variable {w : Nat} {op : BinaryOp} {a b : Int}

/-- Results of a type of two bits or more are wrapped to its width. -/
lemma width_int (wide : 2 ≤ w) : width (.int w) = w := by
  rw [width, if_pos (by omega), Int.toNat_natCast]

/-- On integers an operator computes its unbounded result and wraps it. -/
lemma binary_int (wide : 2 ≤ w) : binary op (.int w) (.int a) (.int b) =
    (intResult op a b).map fun n => .int (wrap w n) := by
  have wraps : binary op (.int w) (.int a) (.int b) =
      (intResult op a b).map fun n => .int (wrap (width (.int w)) n) := by
    cases op <;> rfl
  rw [wraps, width_int wide]

/-- An operator with an unbounded result returns it wrapped. -/
lemma binary_of_result {n : Int} (wide : 2 ≤ w) (result : intResult op a b = .ok n) :
    binary op (.int w) (.int a) (.int b) = .ok (.int (wrap w n)) := by
  rw [binary_int wide, result]
  rfl

/-- Only a division by zero has no result. -/
lemma intResult_eq_error_iff (known : op ∈ BinaryOp.all) :
    (∃ f, intResult op a b = .error f) ↔ (op = .sdiv ∨ op = .srem) ∧ b = 0 := by
  cases op with
  | sdiv | srem =>
    by_cases zero : b = 0
    · simp [intResult, zero, throw, throwThe, MonadExceptOf.throw]
    · simp [intResult, zero, pure, Except.pure]
  | unknown name => simp [BinaryOp.all] at known
  | _ => simp [intResult, pure, Except.pure]

/-- The word of a result is computed from the words of the operands, unless it is a quotient or
remainder. -/
lemma intResult_onWords (known : op ∈ BinaryOp.all) (whole : ¬ (op = .sdiv ∨ op = .srem)) (w : Nat)
    (a b : Int) : ∃ n, intResult op a b = .ok n ∧
      BitVec.ofInt w n = op.onWords (BitVec.ofInt w a) (BitVec.ofInt w b) := by
  cases op with
  | add => exact ⟨_, rfl, BitVec.ofInt_add a b⟩
  | sub => exact ⟨_, rfl, ofInt_sub w a b⟩
  | mul => exact ⟨_, rfl, BitVec.ofInt_mul a b⟩
  | and => exact ⟨_, rfl, ofInt_and w a b⟩
  | or => exact ⟨_, rfl, ofInt_or w a b⟩
  | xor => exact ⟨_, rfl, ofInt_xor w a b⟩
  | sdiv => exact absurd (.inl rfl) whole
  | srem => exact absurd (.inr rfl) whole
  | unknown name => simp [BinaryOp.all] at known

/-! ## Division -/

/-- The quotient of the absolute values, with the sign corrected, is rounded towards zero. -/
lemma quotient_eq_tdiv (a b : Int) : quotient a b = a.tdiv b := by
  have nonneg (k : Nat) : decide (Int.ofNat k < 0) = false := decide_eq_false (Int.not_ofNat_neg k)
  have neg (k : Nat) : decide (Int.negSucc k < 0) = true := decide_eq_true (Int.negSucc_lt_zero k)
  cases a with
  | ofNat m =>
    cases b with
    | ofNat n =>
      rw [quotient, nonneg, nonneg]
      rfl
    | negSucc n =>
      rw [quotient, nonneg, neg]
      rfl
  | negSucc m =>
    cases b with
    | ofNat n =>
      rw [quotient, neg, nonneg]
      rfl
    | negSucc n =>
      rw [quotient, neg, neg]
      rfl

/-- What the quotient leaves of the dividend. -/
lemma sub_mul_quotient (a b : Int) : a - b * quotient a b = a.tmod b := by
  rw [quotient_eq_tdiv, Int.tmod_def]

/-- The quotient of two words, wrapped, is their signed division. -/
lemma wrap_quotient (pos : 0 < w) (fits : Fits w a) (fits' : Fits w b) :
    wrap w (quotient a b) = ((BitVec.ofInt w a).sdiv (BitVec.ofInt w b)).toInt := by
  rw [quotient_eq_tdiv, BitVec.toInt_sdiv, toInt_ofInt_of_fits pos fits, toInt_ofInt_of_fits pos fits',
    wrap_eq_bmod]

/-- The quotient of two words is a word, unless it is that of the least one by minus one. -/
lemma toInt_sdiv_of_fits (pos : 0 < w) (fits : Fits w a) (fits' : Fits w b) :
    ((BitVec.ofInt w a).sdiv (BitVec.ofInt w b)).toInt =
      if a = -2 ^ (w - 1) ∧ b = -1 then a else a.tdiv b := by
  have least : BitVec.ofInt w a = BitVec.intMin w ↔ a = -2 ^ (w - 1) := by
    rw [← BitVec.toInt_inj, toInt_ofInt_of_fits pos fits, BitVec.toInt_intMin_of_pos pos]
  have ones : BitVec.ofInt w b = -1#w ↔ b = -1 := by
    rw [← BitVec.toInt_inj, toInt_ofInt_of_fits pos fits', BitVec.neg_one_eq_allOnes,
      BitVec.toInt_allOnes, if_pos pos]
  split
  · -- the quotient would be one more than the greatest word
    rename_i extreme
    have word := least.2 extreme.1
    rw [ones.2 extreme.2, word, BitVec.intMin_sdiv_neg_one, ← word, toInt_ofInt_of_fits pos fits]
  · rename_i other
    rw [← least, ← ones, not_and_or] at other
    rw [BitVec.toInt_sdiv_of_ne_or_ne _ _ other, toInt_ofInt_of_fits pos fits,
      toInt_ofInt_of_fits pos fits']

/-- The remainder of two words is a word. -/
lemma toInt_srem_of_fits (pos : 0 < w) (fits : Fits w a) (fits' : Fits w b) :
    ((BitVec.ofInt w a).srem (BitVec.ofInt w b)).toInt = a.tmod b := by
  rw [BitVec.toInt_srem, toInt_ofInt_of_fits pos fits, toInt_ofInt_of_fits pos fits']

/-- The remainder of two words, wrapped, is the remainder of their signed division. -/
lemma wrap_remainder (pos : 0 < w) (fits : Fits w a) (fits' : Fits w b) :
    wrap w (a - b * quotient a b) = ((BitVec.ofInt w a).srem (BitVec.ofInt w b)).toInt := by
  have word := toInt_srem_of_fits pos fits fits'
  rw [sub_mul_quotient, word]
  exact wrap_of_fits pos (word ▸ fits_toInt _)

/-- Rounding towards zero divides the absolute values and multiplies the signs. -/
lemma tdiv_eq_sign_mul (a b : Int) : a.tdiv b = a.sign * b.sign * (a.natAbs / b.natAbs : Nat) := by
  rw [← Int.sign_mul_natAbs (a.tdiv b), Int.sign_tdiv, Int.natAbs_tdiv]
  split
  · rename_i less
    rw [Nat.div_eq_of_lt less, Int.zero_mul, Int.natCast_zero, Int.mul_zero]
  · rfl

/-- A remainder differs from the dividend by a multiple of the divisor, is smaller than the divisor and
has the sign of the dividend. -/
lemma tmod_remains (a : Int) (nonzero : b ≠ 0) :
    b ∣ a - a.tmod b ∧ (a.tmod b).natAbs < b.natAbs ∧ (a.tmod b = 0 ∨ (a.tmod b).sign = a.sign) := by
  refine ⟨Int.dvd_self_sub_tmod, ?_, ?_⟩
  · rw [Int.natAbs_tmod]
    exact Nat.mod_lt _ (Int.natAbs_pos.2 nonzero)
  · rw [← Int.sign_eq_zero_iff_zero, Int.sign_tmod]
    split
    · exact .inl rfl
    · exact .inr rfl

/-! ## All operators -/

/-- Only a division by zero faults. -/
lemma binary_eq_error_iff (wide : 2 ≤ w) (known : op ∈ BinaryOp.all) :
    (∃ f, binary op (.int w) (.int a) (.int b) = .error f) ↔ (op = .sdiv ∨ op = .srem) ∧ b = 0 := by
  rw [binary_int wide, ← intResult_eq_error_iff known]
  cases intResult op a b <;> simp [Except.map]

/-- Where there is a result, it is that of the operation on words. -/
lemma binary_onWords (wide : 2 ≤ w) (known : op ∈ BinaryOp.all) (fits : Fits w a) (fits' : Fits w b)
    (defined : ¬ ((op = .sdiv ∨ op = .srem) ∧ b = 0)) :
    binary op (.int w) (.int a) (.int b) =
      .ok (.int (op.onWords (BitVec.ofInt w a) (BitVec.ofInt w b)).toInt) := by
  have pos : 0 < w := by omega
  by_cases division : op = .sdiv ∨ op = .srem
  · have nonzero : b ≠ 0 := fun zero => defined ⟨division, zero⟩
    rcases division with rfl | rfl
    · have result : intResult .sdiv a b = .ok (quotient a b) := if_neg nonzero
      rw [binary_of_result wide result, wrap_quotient pos fits fits', BinaryOp.onWords]
    · have result : intResult .srem a b = .ok (a - b * quotient a b) := if_neg nonzero
      rw [binary_of_result wide result, wrap_remainder pos fits fits', BinaryOp.onWords]
  · obtain ⟨n, result, word⟩ := intResult_onWords known division w a b
    rw [binary_of_result wide result, wrap_eq_toInt, word]

/-- Unless they divide, operators compute the same on other integers with the same words. -/
lemma binary_wrap (wide : 2 ≤ w) (known : op ∈ BinaryOp.all) (whole : ¬ (op = .sdiv ∨ op = .srem)) (a b : Int) :
    binary op (.int w) (.int a) (.int b) = binary op (.int w) (.int (wrap w a)) (.int (wrap w b)) := by
  obtain ⟨m, result, word⟩ := intResult_onWords known whole w a b
  obtain ⟨n, result', word'⟩ := intResult_onWords known whole w (wrap w a) (wrap w b)
  have same : wrap w m = wrap w n := by
    rw [wrap_eq_wrap_iff, word, word', ofInt_wrap, ofInt_wrap]
  rw [binary_of_result wide result, binary_of_result wide result', same]

end

/-- Operators on integers that fit a width compute what the operations on words of that width do, read
as signed numbers; only a division by zero faults. Quotients are rounded towards zero, where the one
that does not fit is the least number again, and remainders have the sign of the dividend. Except in
divisions the integers may be any, and only their words count. -/
theorem binary_is_word_arithmetic {w : Nat} (wide : 2 ≤ w) {op : BinaryOp} (known : op ∈ BinaryOp.all) :
    (∀ a b, Fits w a → Fits w b →
      ((∃ f, binary op (.int w) (.int a) (.int b) = .error f) ↔ (op = .sdiv ∨ op = .srem) ∧ b = 0) ∧
      (¬ ((op = .sdiv ∨ op = .srem) ∧ b = 0) →
        ∃ r, binary op (.int w) (.int a) (.int b) = .ok (.int r) ∧ Fits w r ∧
          r = (op.onWords (BitVec.ofInt w a) (BitVec.ofInt w b)).toInt ∧
          (op = .sdiv → r = if a = -2 ^ (w - 1) ∧ b = -1 then a
            else a.sign * b.sign * (a.natAbs / b.natAbs : Nat)) ∧
          (op = .srem → b ∣ a - r ∧ r.natAbs < b.natAbs ∧ (r = 0 ∨ r.sign = a.sign)))) ∧
    (¬ (op = .sdiv ∨ op = .srem) → ∀ a b,
      binary op (.int w) (.int a) (.int b) = binary op (.int w) (.int (wrap w a)) (.int (wrap w b))) := by
  have pos : 0 < w := by omega
  refine ⟨fun a b fits fits' => ⟨binary_eq_error_iff wide known, fun defined => ?_⟩,
    binary_wrap wide known⟩
  refine ⟨_, binary_onWords wide known fits fits' defined, fits_toInt _, rfl, ?_, ?_⟩
  · rintro rfl
    rw [← tdiv_eq_sign_mul]
    exact toInt_sdiv_of_fits pos fits fits'
  · rintro rfl
    have nonzero : b ≠ 0 := fun zero => defined ⟨.inr rfl, zero⟩
    have value : (BinaryOp.srem.onWords (BitVec.ofInt w a) (BitVec.ofInt w b)).toInt = a.tmod b :=
      toInt_srem_of_fits pos fits fits'
    rw [value]
    exact tmod_remains a nonzero

/-- Bytes at their bounds: the quotient that overflows, a remainder of a negative number, the end of the
range, a division by zero, and operands beyond the bytes on both sides. -/
theorem byte_arithmetic :
    Fits 8 (-128) ∧ Fits 8 (-1) ∧ Fits 8 127 ∧ Fits 8 3 ∧ Fits 8 0 ∧
    binary .sdiv (.int 8) (.int (-128)) (.int (-1)) = .ok (.int (-128)) ∧
    binary .srem (.int 8) (.int (-128)) (.int 3) = .ok (.int (-2)) ∧
    binary .add (.int 8) (.int 127) (.int 3) = .ok (.int (-126)) ∧
    (∃ f, binary .srem (.int 8) (.int 127) (.int 0) = .error f) ∧
    binary .xor (.int 8) (.int 300) (.int (-200)) = binary .xor (.int 8) (.int 44) (.int 56) := by
  have wide : 2 ≤ 8 := by decide
  have least : Fits 8 (-128) := by decide
  have negative : Fits 8 (-1) := by decide
  have greatest : Fits 8 127 := by decide
  have three : Fits 8 3 := by decide
  have zero : Fits 8 0 := by decide
  have sdiv : BinaryOp.sdiv ∈ BinaryOp.all := by decide
  have srem : BinaryOp.srem ∈ BinaryOp.all := by decide
  have add : BinaryOp.add ∈ BinaryOp.all := by decide
  have xor : BinaryOp.xor ∈ BinaryOp.all := by decide
  obtain ⟨q, quotient, _, valueq, _⟩ :=
    ((binary_is_word_arithmetic wide sdiv).1 (-128) (-1) least negative).2 (by decide)
  obtain ⟨r, remainder, _, valuer, _⟩ :=
    ((binary_is_word_arithmetic wide srem).1 (-128) 3 least three).2 (by decide)
  obtain ⟨s, sum, _, values, _⟩ :=
    ((binary_is_word_arithmetic wide add).1 127 3 greatest three).2 (by decide)
  have fault := ((binary_is_word_arithmetic wide srem).1 127 0 greatest zero).1.2 (by decide)
  have words := (binary_is_word_arithmetic wide xor).2 (by decide) 300 (-200)
  obtain rfl : q = -128 := valueq.trans (by decide)
  obtain rfl : r = -2 := valuer.trans (by decide)
  obtain rfl : s = -126 := values.trans (by decide)
  exact ⟨least, negative, greatest, three, zero, quotient, remainder, sum, fault, words⟩

end Machine

end ImpSSA
