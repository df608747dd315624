/-!
# Random sources

A source answers two kinds of questions: whether something happens that has a given chance, and
which of the numbers up to a bound is drawn. Every answer is in range by its type. A script answers
them from a list of numbers.
-/

namespace ImpSSA

/-- A source of random choices with states `σ`. -/
class RandomSource (σ : Type) where
  /-- Whether an event with a chance of `percent` in a hundred happens. -/
  chance (percent : Nat) (s : σ) : Bool × σ
  /-- A number that is at most `n`. -/
  upTo (n : Nat) (s : σ) : Fin (n + 1) × σ

/-- Numbers to answer with; when they are used up the answer is zero. -/
structure Script where
  draws : List Int
  /-- The number of questions answered. -/
  used : Nat

/-- The next number of a script. -/
def Script.draw (s : Script) : Int × Script :=
  match s.draws with
  | [] => (0, ⟨[], s.used + 1⟩)
  | d :: ds => (d, ⟨ds, s.used + 1⟩)

instance : RandomSource Script where
  chance percent s :=
    let (d, s) := s.draw
    (decide (d % 100 < percent), s)
  upTo n s :=
    let (d, s) := s.draw
    (Fin.ofNat (n + 1) (d % (n + 1)).toNat, s)

end ImpSSA
