/-
# Dice on exact fractions

Over the fractions the operations of `Scalar` are the ordinary ones, without
rounding and without numbers that are not numbers.  This module says so, one
operation at a time: `lesser` and `greater` are `min` and `max`, the divisors
that count as zero are those strictly between `-1/10000` and `1/10000`, the
integer part is monotone, and the whole numbers are the subring of the
integers (`Scalar.isWhole_iff`).
-/

import DiceFormula.Number.Scalar
import Mathlib.Algebra.Order.Floor.Ring
import Mathlib.Algebra.Order.Round
import Mathlib.Algebra.Ring.Subring.Basic
import Mathlib.Data.Rat.Floor
import Mathlib.Tactic.Linarith
import Mathlib.Tactic.NormNum
import Mathlib.Tactic.Positivity

namespace DiceFormula

/-- The integers among the fractions. -/
abbrev wholeNumbers : Subring ℚ := (Int.castRingHom ℚ).range

theorem mem_wholeNumbers {x : ℚ} : x ∈ wholeNumbers ↔ ∃ n : ℤ, (n : ℚ) = x := Iff.rfl

theorem intCast_mem_wholeNumbers (n : ℤ) : (n : ℚ) ∈ wholeNumbers := ⟨n, rfl⟩

namespace Scalar

theorem ofInt_rat (n : ℤ) : (ofInt n : ℚ) = n := rfl

theorem neutral_rat : (neutral : ℚ) = 0 := by
  simp [neutral, ofDecimal, Decimal.toRat]

theorem threshold_rat : (threshold : ℚ) = 1 / 10000 := by
  simp [threshold, ofDecimal, Decimal.toRat, placeValue, Rat.mkRat_eq_div]

theorem negThreshold_rat : (negThreshold : ℚ) = -(1 / 10000) := by
  simp [negThreshold, ofDecimal, Decimal.toRat, placeValue, Rat.mkRat_eq_div]

theorem lesser_rat (x y : ℚ) : lesser x y = min x y := by
  simp [lesser, min_def]

theorem greater_rat (x y : ℚ) : greater x y = max x y := by
  simp [greater, max_def']

theorem isNegligible_rat (x : ℚ) :
    isNegligible x = true ↔ -(1 / 10000) < x ∧ x < 1 / 10000 := by
  rw [isNegligible, negThreshold_rat, threshold_rat, Bool.and_eq_true, decide_eq_true_iff,
    decide_eq_true_iff]

/-! ### Integer parts -/

theorem trunc_rat (x : ℚ) : trunc x = if x < 0 then -(⌊-x⌋ : ℚ) else (⌊x⌋ : ℚ) := rfl

theorem trunc_mem_wholeNumbers (x : ℚ) : trunc x ∈ wholeNumbers := by
  rw [trunc_rat]
  split_ifs
  · exact neg_mem (intCast_mem_wholeNumbers _)
  · exact intCast_mem_wholeNumbers _

theorem trunc_intCast (n : ℤ) : trunc (n : ℚ) = n := by
  have h : ⌊-(n : ℚ)⌋ = -n := by rw [← Int.cast_neg, Int.floor_intCast]
  rw [trunc_rat, h, Int.floor_intCast, Int.cast_neg, neg_neg, ite_self]

/-- **The integer part is monotone.** -/
theorem trunc_mono {x y : ℚ} (h : x ≤ y) : (trunc x : ℚ) ≤ trunc y := by
  rw [trunc_rat, trunc_rat]
  split_ifs with hx hy hy
  · exact neg_le_neg (Int.cast_le.2 (Int.floor_le_floor (neg_le_neg h)))
  · have h₁ : (0 : ℚ) ≤ ⌊-x⌋ := Int.cast_nonneg (Int.floor_nonneg.2 (by linarith))
    have h₂ : (0 : ℚ) ≤ ⌊y⌋ := Int.cast_nonneg (Int.floor_nonneg.2 (by linarith))
    linarith
  · exact absurd (h.trans_lt hy) hx
  · exact Int.cast_le.2 (Int.floor_le_floor h)

/-- **A number has no fraction when it is an integer.** -/
theorem isWhole_iff (x : ℚ) : isWhole x = true ↔ x ∈ wholeNumbers := by
  have h : isWhole x = true ↔ x - trunc x = 0 := beq_iff_eq
  rw [h, sub_eq_zero]
  constructor
  · intro hx
    rw [hx]
    exact trunc_mem_wholeNumbers x
  · rintro ⟨n, rfl⟩
    exact (trunc_intCast n).symm

theorem text_intCast (n : ℤ) : text (n : ℚ) = Digits.ofInt n := by
  have h : text (n : ℚ) = Fraction.text n := rfl
  rw [h, Fraction.text, if_pos (Rat.den_intCast n), Rat.num_intCast]

/-- The count that an integer part gives is that integer. -/
theorem toCount_rat {x : ℚ} (hw : x ∈ wholeNumbers) (hx : 1 ≤ x) : (toCount x : ℚ) = x := by
  obtain ⟨n, rfl⟩ := mem_wholeNumbers.1 hw
  have hn : 1 ≤ n := by exact_mod_cast hx
  have h : exact (n : ℚ) = .finite false n := if_neg (by simpa using by omega)
  have hf : (n : ℚ).floor = n := Rat.floor_intCast n
  simp only [toCount, h]
  rw [hf, max_eq_right (by omega)]
  exact_mod_cast congrArg (Int.cast : ℤ → ℚ) (Int.toNat_of_nonneg (by omega : 0 ≤ n))

end Scalar
end DiceFormula
