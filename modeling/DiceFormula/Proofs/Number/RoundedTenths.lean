/-
# The nearest tenth

What a number is rounded to is the whole number of tenths that is nearest to it, and of two equally
near ones the one farther from zero (`Scalar.isNearestTenth_iff`).  Whole numbers come first: a
number that is not negative lies less than a half below its rounded value plus one, and not more
than a half below the rounded value itself, so of all integers only the one just below can be as
near.  Negative numbers are the mirror image (`Scalar.round_neg`), and tenths are whole numbers
after multiplying by ten.

Rounding keeps the order (`Scalar.toTenths_mono`), and it is odd (`Scalar.toTenths_neg`).
-/

import DiceFormula.Proofs.Number.Tenths

namespace DiceFormula
namespace Scalar

/-! ### Whole numbers -/

theorem round_of_nonneg {x : ℚ} (h : 0 ≤ x) : round x = ⌊x + 1 / 2⌋ := by
  rw [round_rat, if_neg (not_lt.2 h)]

theorem round_nonneg {x : ℚ} (h : 0 ≤ x) : (0 : ℚ) ≤ round x := by
  rw [round_of_nonneg h]
  exact Int.cast_nonneg (Int.floor_nonneg.2 (by linarith))

/-- **Rounding is odd.** -/
theorem round_neg (x : ℚ) : (round (-x) : ℚ) = -round x := by
  rcases lt_trichotomy x 0 with h | rfl | h
  · rw [round_of_nonneg (by linarith), round_rat, if_pos h, neg_neg]
  · have hzero : (round 0 : ℚ) = 0 := by
      rw [← Int.cast_zero, round_intCast]
    rw [neg_zero, hzero, neg_zero]
  · rw [round_rat, if_pos (by linarith), neg_neg, round_of_nonneg h.le]

/-- **Rounding keeps the order.** -/
theorem round_mono {x y : ℚ} (h : x ≤ y) : (round x : ℚ) ≤ round y := by
  have mono : ∀ z w : ℚ, 0 ≤ z → z ≤ w → (round z : ℚ) ≤ round w := by
    intro z w hz hzw
    rw [round_of_nonneg hz, round_of_nonneg (hz.trans hzw)]
    exact Int.cast_le.2 (Int.floor_le_floor (by linarith))
  rcases le_total 0 x with hx | hx
  · exact mono x y hx h
  · rcases le_total 0 y with hy | hy
    · have hneg := round_nonneg (neg_nonneg.2 hx)
      rw [round_neg] at hneg
      linarith [round_nonneg hy]
    · have hneg := mono (-y) (-x) (by linarith) (by linarith)
      rw [round_neg, round_neg] at hneg
      linarith

theorem round_nearest_of_nonneg {x : ℚ} (h : 0 ≤ x) (m : ℤ) : |x - round x| ≤ |x - m| ∧
    (|x - m| = |x - round x| → |(m : ℚ)| ≤ |round x|) := by
  have hn₀ := round_nonneg h
  rw [round_of_nonneg h] at hn₀ ⊢
  generalize hn : ⌊x + 1 / 2⌋ = n at hn₀ ⊢
  obtain ⟨hle, hlt⟩ := Int.floor_eq_iff.1 hn
  have hnear : |x - n| ≤ 1 / 2 := abs_le.2 ⟨by linarith, by linarith⟩
  rcases lt_trichotomy m n with hm | rfl | hm
  · have hm' : (m : ℚ) + 1 ≤ n := by exact_mod_cast hm
    have hfar := le_abs_self (x - m)
    refine ⟨by linarith, fun htie => ?_⟩
    -- A negative integer is more than a half away.
    have hm₀ : (0 : ℚ) ≤ m := by
      by_contra hneg
      have hneg' : m + 1 ≤ 0 := by exact_mod_cast not_le.1 hneg
      have hneg'' : (m : ℚ) + 1 ≤ 0 := by exact_mod_cast hneg'
      linarith
    rw [abs_of_nonneg hm₀, abs_of_nonneg hn₀]
    linarith
  · exact ⟨le_rfl, fun _ => le_rfl⟩
  · have hm' : (n : ℚ) + 1 ≤ m := by exact_mod_cast hm
    have hfar := neg_le_abs (x - m)
    exact ⟨by linarith, fun htie => absurd htie (by linarith)⟩

/-- No integer is nearer than the rounded one, and none that is as near is farther from zero. -/
theorem round_nearest (x : ℚ) (m : ℤ) : |x - round x| ≤ |x - m| ∧
    (|x - m| = |x - round x| → |(m : ℚ)| ≤ |round x|) := by
  rcases le_total 0 x with hx | hx
  · exact round_nearest_of_nonneg hx m
  · have hneg := round_nearest_of_nonneg (neg_nonneg.2 hx) (-m)
    have hsub : ∀ y : ℚ, |-x - -y| = |x - y| := by
      intro y
      rw [← neg_add', abs_neg, sub_eq_add_neg]
    rwa [round_neg, Int.cast_neg, hsub, hsub, abs_neg, abs_neg] at hneg

/-! ### Tenths -/

/-- The multiple of a tenth that is nearest to a number, and of two equally near ones the one
farther from zero. -/
structure IsNearestTenth (x y : ℚ) : Prop where
  isTenths : IsTenths y
  nearest : ∀ z, IsTenths z → |x - y| ≤ |x - z|
  away : ∀ z, IsTenths z → |x - z| = |x - y| → |z| ≤ |y|

theorem toTenths_rat (x : ℚ) : toTenths x = (round (x * 10) : ℚ) / 10 := rfl

theorem toTenths_neg (x : ℚ) : (toTenths (-x) : ℚ) = -toTenths x := by
  rw [toTenths_rat, toTenths_rat, neg_mul, round_neg, neg_div]

/-- **Rounding to tenths keeps the order.** -/
theorem toTenths_mono {x y : ℚ} (h : x ≤ y) : (toTenths x : ℚ) ≤ toTenths y := by
  rw [toTenths_rat, toTenths_rat]
  have hround : (round (x * 10) : ℚ) ≤ round (y * 10) := round_mono (by linarith)
  linarith

theorem isNearestTenth_toTenths (x : ℚ) : IsNearestTenth x (toTenths x) := by
  have hscale : ∀ y : ℚ, |x - y / 10| = |x * 10 - y| / 10 := by
    intro y
    have hten : x - y / 10 = (x * 10 - y) / 10 := by ring
    rw [hten, abs_div, abs_of_pos (by norm_num : (0 : ℚ) < 10)]
  refine ⟨toTenths_isTenths x, ?_, ?_⟩
  · rintro _ ⟨m, rfl⟩
    rw [toTenths_rat, hscale, hscale]
    linarith [(round_nearest (x * 10) m).1]
  · rintro _ ⟨m, rfl⟩ htie
    rw [toTenths_rat, hscale, hscale] at htie
    rw [toTenths_rat, abs_div, abs_div]
    have haway := (round_nearest (x * 10) m).2 (by linarith)
    exact div_le_div_of_nonneg_right haway (abs_nonneg _)

theorem IsNearestTenth.unique {x y z : ℚ} (hy : IsNearestTenth x y) (hz : IsNearestTenth x z) :
    y = z := by
  have hdist : |x - y| = |x - z| :=
    le_antisymm (hy.nearest z hz.isTenths) (hz.nearest y hy.isTenths)
  have habs : |y| = |z| :=
    le_antisymm (hz.away y hy.isTenths hdist) (hy.away z hz.isTenths hdist.symm)
  rcases abs_eq_abs.1 habs with h | rfl
  · exact h
  · -- Opposite tenths are equally near to zero only, and zero itself is nearer.
    rcases abs_eq_abs.1 hdist with h | h
    · linarith
    · have hx : x = 0 := by linarith
      have hzero := hz.nearest 0 ⟨0, by simp⟩
      rw [hx, sub_zero, abs_zero, zero_sub, abs_neg] at hzero
      rw [abs_nonpos_iff.1 hzero, neg_zero]

/-- **Rounding gives the nearest tenth.** -/
theorem isNearestTenth_iff {x y : ℚ} : IsNearestTenth x y ↔ y = toTenths x := by
  constructor
  · exact fun h => h.unique (isNearestTenth_toTenths x)
  · rintro rfl
    exact isNearestTenth_toTenths x

end Scalar
end DiceFormula
