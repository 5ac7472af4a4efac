/-
# Rounding to doubles

A result is rounded from a significand, an exponent and what was left over behind the last bit:
nothing, less than a half, a half, or more (`Leaves`).  The bits that do not fit are shifted
out, and what is left over is kept in two of them (`Represents.shiftRight`).  The significand
is then rounded to even, and shifted once more if that took one bit too many.  What comes out is
the double nearest to the exact value, or an infinity if that is too large
(`Scalar.exact_pack_roundWithAccuracy`).
-/

import DiceFormula.Proofs.Number.Unpacked

namespace DiceFormula

open Float.Model Float.Model.UnpackedFloat

/-- What is left over of `x` behind the significand `m`. -/
def Leaves (m : ℕ) (x : ℚ) : Accuracy → Prop
  | .exact => x = m
  | .inexact .lt => (m : ℚ) < x ∧ x < m + 1 / 2
  | .inexact .eq => x = m + 1 / 2
  | .inexact .gt => (m : ℚ) + 1 / 2 < x ∧ x < m + 1

/-- A significand with its two extra bits. -/
def Represents (em : ExtendedMantissa) (x : ℚ) : Prop := Leaves em.mantissa x em.accuracy

namespace Leaves

variable {m : ℕ} {x : ℚ} {acc : Accuracy}

theorem represents (h : Leaves m x acc) :
    Represents (ExtendedMantissa.ofMantissaAndAccuracy m acc) x := by
  cases acc with
  | exact => exact h
  | inexact o => cases o <;> exact h

/-- The significand is the whole part. -/
theorem le_and_lt (h : Leaves m x acc) : (m : ℚ) ≤ x ∧ x < m + 1 := by
  cases acc with
  | exact =>
    obtain rfl : x = m := h
    exact ⟨le_rfl, by linarith⟩
  | inexact o =>
    cases o with
    | lt => exact ⟨h.1.le, by linarith [h.2]⟩
    | eq =>
      obtain rfl : x = m + 1 / 2 := h
      exact ⟨by linarith, by linarith⟩
    | gt => exact ⟨by linarith [h.1], h.2⟩

/-- **What is left over decides how the significand is rounded.** -/
theorem roundToNearestEven_eq (h : Leaves m x acc) :
    acc.roundToNearestEven m = roundHalfEven x := by
  have hx : 0 ≤ x := (Nat.cast_nonneg m).trans h.le_and_lt.1
  symm
  cases acc with
  | exact =>
    obtain rfl : x = m := h
    exact roundHalfEven_natCast m
  | inexact o =>
    cases o with
    | lt =>
      refine roundHalfEven_eq_of_abs_lt hx (n := m) ?_
      rw [abs_lt]
      exact ⟨by linarith [h.1], by linarith [h.2]⟩
    | eq =>
      obtain rfl : x = m + 1 / 2 := h
      rw [roundHalfEven_eq_iff hx]
      show |(m : ℚ) + 1 / 2 - (m + m % 2 : ℕ)| ≤ 1 / 2 ∧ (_ → Even (m + m % 2))
      rcases Nat.mod_two_eq_zero_or_one m with hm | hm <;> rw [hm]
      · refine ⟨?_, fun _ => Nat.even_iff.2 hm⟩
        rw [abs_le]
        push_cast
        exact ⟨by linarith, by linarith⟩
      · refine ⟨?_, fun _ => Nat.even_iff.2 (by omega)⟩
        rw [abs_le]
        push_cast
        exact ⟨by linarith, by linarith⟩
    | gt =>
      refine roundHalfEven_eq_of_abs_lt hx (n := m + 1) ?_
      rw [abs_lt]
      push_cast
      exact ⟨by linarith [h.1], by linarith [h.2]⟩

end Leaves

namespace Represents

variable {em : ExtendedMantissa} {x : ℚ}

/-- **Shifting by one bit halves the value.** -/
theorem shiftRightOne (h : Represents em x) : Represents em.shiftRightOne (x / 2) := by
  obtain ⟨m, round, sticky⟩ := em
  show Leaves (m / 2) (x / 2) (ExtendedMantissa.accuracy ⟨m / 2, m % 2 != 0, round || sticky⟩)
  have hm : (m : ℚ) = 2 * (m / 2 : ℕ) + (m % 2 : ℕ) := by exact_mod_cast (Nat.div_add_mod m 2).symm
  rcases Nat.mod_two_eq_zero_or_one m with hr | hr
  · rw [hr, Nat.cast_zero, add_zero] at hm
    rw [hr]
    cases round <;> cases sticky
    · have h : x = m := h
      show x / 2 = (m / 2 : ℕ)
      linarith
    · obtain ⟨h₁, h₂⟩ := h
      exact ⟨by linarith, by linarith⟩
    · have h : x = m + 1 / 2 := h
      exact ⟨by linarith, by linarith⟩
    · obtain ⟨h₁, h₂⟩ := h
      exact ⟨by linarith, by linarith⟩
  · rw [hr, Nat.cast_one] at hm
    rw [hr]
    cases round <;> cases sticky
    · have h : x = m := h
      show x / 2 = (m / 2 : ℕ) + 1 / 2
      linarith
    · obtain ⟨h₁, h₂⟩ := h
      exact ⟨by linarith, by linarith⟩
    · have h : x = m + 1 / 2 := h
      exact ⟨by linarith, by linarith⟩
    · obtain ⟨h₁, h₂⟩ := h
      exact ⟨by linarith, by linarith⟩

/-- Shifting divides by a power of two. -/
theorem shiftRight (h : Represents em x) (k : ℕ) : Represents (em >>> k) (x / 2 ^ k) := by
  show Represents (k.repeat ExtendedMantissa.shiftRightOne em) _
  induction k with
  | zero => rwa [Nat.repeat, pow_zero, div_one]
  | succ k ih =>
    rw [Nat.repeat, pow_succ, ← div_div]
    exact ih.shiftRightOne

end Represents

section

variable {v : ℚ} {m : ℕ} {e : ℤ} {acc : Accuracy}

/-- **The exponent that is aimed at is that of the grid.** -/
theorem targetExponent_eq (hv : 0 < v) (h : Leaves m (v / 2 ^ e) acc) (hm : 0 < m) :
    Format.binary64.targetExponent (totalExponent m e) = ulpExponent v := by
  show max ((m.log2 : ℤ) + 1 + e - 53) (-1074) = max (Int.log 2 v - 52) (-1074)
  have hpos := two_zpow_pos e
  obtain ⟨hle, hlt⟩ := h.le_and_lt
  rw [le_div_iff₀ hpos] at hle
  rw [div_lt_iff₀ hpos] at hlt
  have hlow : (2 ^ m.log2 : ℚ) ≤ m := by exact_mod_cast Nat.log2_self_le hm.ne'
  have hhigh : (m + 1 : ℚ) ≤ 2 ^ (m.log2 + 1) := by exact_mod_cast Nat.lt_log2_self
  have hlog : Int.log 2 v = m.log2 + e := by
    refine le_antisymm ?_ ?_
    · rw [← Int.lt_add_one_iff, ← Int.lt_zpow_iff_log_lt (by norm_num) hv]
      calc v < (m + 1) * 2 ^ e := hlt
        _ ≤ 2 ^ (m.log2 + 1) * 2 ^ e := mul_le_mul_of_nonneg_right hhigh hpos.le
        _ = ((2 : ℕ) : ℚ) ^ ((m.log2 : ℤ) + e + 1) := by
          rw [Nat.cast_ofNat, ← zpow_natCast, ← two_zpow_add]
          congr 1
          push_cast
          ring
    · rw [← Int.zpow_le_iff_le_log (by norm_num) hv]
      calc ((2 : ℕ) : ℚ) ^ ((m.log2 : ℤ) + e) = 2 ^ m.log2 * 2 ^ e := by
            rw [Nat.cast_ofNat, two_zpow_add, zpow_natCast]
        _ ≤ m * 2 ^ e := mul_le_mul_of_nonneg_right hlow hpos.le
        _ ≤ v := hle
  rw [hlog]
  congr 1
  ring

/-- A value of less than one step is on the finest grid. -/
theorem targetExponent_zero (hv : 0 < v) (h : Leaves 0 (v / 2 ^ e) acc) (he : e ≤ ulpExponent v) :
    Format.binary64.targetExponent (totalExponent 0 e) = ulpExponent v := by
  show max (((0 : ℕ).log2 : ℤ) + 1 + e - 53) (-1074) = max (Int.log 2 v - 52) (-1074)
  have hlt := h.le_and_lt.2
  rw [div_lt_iff₀ (two_zpow_pos e), Nat.cast_zero, zero_add, one_mul] at hlt
  have hlog : Int.log 2 v < e := by
    rw [← Int.lt_zpow_iff_log_lt (by norm_num) hv]
    exact_mod_cast hlt
  have hleast : e ≤ -1074 := (le_max_iff.1 he).resolve_left (by omega)
  rw [max_eq_right (by rw [Nat.log2_zero]; omega), max_eq_right (by omega)]

/-- **The bits that do not fit are shifted out.** -/
theorem exists_shiftToTargetExponent (hv : 0 < v) (h : Leaves m (v / 2 ^ e) acc)
    (he : e ≤ ulpExponent v) : ∃ em, shiftToTargetExponent .binary64 m e acc = (em, ulpExponent v) ∧
      Represents em (v / 2 ^ ulpExponent v) := by
  have hsum : e + ((ulpExponent v - e).toNat : ℤ) = ulpExponent v := by omega
  have htarget : Format.binary64.targetExponent (totalExponent m e) = ulpExponent v := by
    rcases Nat.eq_zero_or_pos m with rfl | hm
    · exact targetExponent_zero hv h he
    · exact targetExponent_eq hv h hm
  refine ⟨ExtendedMantissa.ofMantissaAndAccuracy m acc >>> (ulpExponent v - e).toNat, ?_, ?_⟩
  · rw [shiftToTargetExponent, htarget, shiftToExponent, hsum]
  · have hshift := h.represents.shiftRight (ulpExponent v - e).toNat
    rwa [div_div, ← zpow_natCast, ← two_zpow_add, hsum] at hshift

/-- A significand that fits stays. -/
theorem shiftToTargetExponent_of_lt {n : ℕ} (hn : n < 2 ^ 53) (he : -1074 ≤ e) :
    shiftToTargetExponent .binary64 n e .exact = (⟨n, false, false⟩, e) := by
  have hlog : n.log2 ≤ 52 := by
    rcases Nat.eq_zero_or_pos n with rfl | hpos
    · rw [Nat.log2_zero]
      omega
    · exact Nat.lt_succ_iff.1 ((Nat.log2_lt hpos.ne').2 hn)
  have hshift : (Format.binary64.targetExponent (totalExponent n e) - e).toNat = 0 := by
    show (max ((n.log2 : ℤ) + 1 + e - 53) (-1074) - e).toNat = 0
    omega
  rw [shiftToTargetExponent, shiftToExponent, hshift, Nat.cast_zero, add_zero]
  rfl

/-- One that takes one bit too many is halved. -/
theorem shiftToTargetExponent_top (he : -1074 ≤ e) :
    shiftToTargetExponent .binary64 (2 ^ 53) e .exact = (⟨2 ^ 52, false, false⟩, e + 1) := by
  have hlog : (2 ^ 53 : ℕ).log2 = 53 := Nat.log2_two_pow
  have hshift : (Format.binary64.targetExponent (totalExponent (2 ^ 53) e) - e).toNat = 1 := by
    show (max (((2 ^ 53 : ℕ).log2 : ℤ) + 1 + e - 53) (-1074) - e).toNat = 1
    omega
  rw [shiftToTargetExponent, shiftToExponent, hshift]
  rfl

end

theorem isCanonical_roundHalfEven {v : ℚ} (hv : 0 < v)
    (hlt : roundHalfEven (v / 2 ^ ulpExponent v) < 2 ^ 53) :
    IsCanonical (roundHalfEven (v / 2 ^ ulpExponent v)) (ulpExponent v) where
  lt := hlt
  le_exponent := le_ulpExponent v
  normal := by
    rcases (le_ulpExponent v).eq_or_lt with heq | hgt
    · exact .inr heq.symm
    · refine .inl (le_roundHalfEven ?_)
      rw [le_div_iff₀ (two_zpow_pos _)]
      exact_mod_cast le_of_le_ulpExponent hv hgt le_rfl

/-- The nearest double is a double. -/
theorem isDouble_nearest {v : ℚ} (hv : 0 < v) : IsDouble (nearest v) := by
  rcases (roundHalfEven_ulp_le hv).lt_or_eq with hlt | heq
  · exact (isCanonical_roundHalfEven hv hlt).isDouble
  · have hleast := le_ulpExponent v
    refine ⟨2 ^ 52, ulpExponent v + 1, by norm_num, by omega, ?_⟩
    rw [nearest, heq, two_zpow_add]
    push_cast
    ring

theorem Exact.rounded_nearest {negative : Bool} {v : ℚ} (hv : 0 < v) :
    rounded negative (nearest v) = rounded negative v := by
  rw [rounded, rounded, (isDouble_nearest hv).nearest_eq]

/-- **Rounding gives the nearest double,** or an infinity if that is too large. -/
theorem Scalar.exact_pack_roundWithAccuracy (s : Sign) {v : ℚ} {m : ℕ} {e : ℤ} {acc : Accuracy}
    (hv : 0 < v) (h : Leaves m (v / 2 ^ e) acc) (he : e ≤ ulpExponent v) :
    exact (Binary64.pack (roundWithAccuracy .binary64 s m e acc)) = .rounded (isMinus s) v := by
  obtain ⟨em, hshift, hem⟩ := exists_shiftToTargetExponent hv h he
  have hround : em.roundedMantissa = roundHalfEven (v / 2 ^ ulpExponent v) :=
    hem.roundToNearestEven_eq
  have hnearest : nearest v = em.roundedMantissa * 2 ^ ulpExponent v := by rw [hround, nearest]
  have hle : em.roundedMantissa ≤ 2 ^ 53 := hround ▸ roundHalfEven_ulp_le hv
  have hleast := le_ulpExponent v
  rw [roundWithAccuracy, hshift]
  dsimp only
  rcases hle.lt_or_eq with hlt | heq
  · rw [shiftToTargetExponent_of_lt hlt hleast]
    dsimp only
    split_ifs with hzero
    · rw [hzero, Nat.cast_zero, zero_mul] at hnearest
      rw [exact_pack_zero, Exact.rounded, hnearest, if_pos doubleLimit_pos]
    · have hcanonical : IsCanonical em.roundedMantissa (ulpExponent v) := by
        rw [hround] at hlt ⊢
        exact isCanonical_roundHalfEven hv hlt
      rw [exact_pack_finite s (Nat.pos_of_ne_zero hzero) hcanonical, ← hnearest,
        Exact.rounded_nearest hv]
  · rw [heq, shiftToTargetExponent_top hleast]
    dsimp only
    rw [dif_neg (by norm_num)]
    have hcanonical : IsCanonical (2 ^ 52) (ulpExponent v + 1) :=
      ⟨by norm_num, by omega, .inl le_rfl⟩
    have hvalue : (((2 ^ 52 : ℕ) : ℚ) * 2 ^ (ulpExponent v + 1)) = nearest v := by
      rw [hnearest, heq, two_zpow_add]
      push_cast
      ring
    rw [exact_pack_finite s (by norm_num) hcanonical, hvalue, Exact.rounded_nearest hv]

end DiceFormula
