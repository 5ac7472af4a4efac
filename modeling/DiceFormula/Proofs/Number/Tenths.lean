/-
# Tenths

A fixed value prints rounded to tenths, and what is printed is exact from then on:
the text of a value is that of a decimal literal whose value is the value rounded to
tenths (`Scalar.exists_shortText_eq`).  Rounding again changes nothing, so the rounded
value prints the same.  A whole number is printed without a point, and any other with one
digit behind it (`Scalar.shortText_natCast`, `Scalar.shortText_natCast_div`).
-/

import DiceFormula.Proofs.Number.Rational

namespace DiceFormula

theorem roundHalfEven_natCast (n : ℕ) : roundHalfEven (n : ℚ) = n := by
  have hrest : n % 1 = 0 := Nat.mod_one n
  simp [roundHalfEven, hrest]

theorem Decimal.toRat_eq_div (negative : Bool) (n k : ℕ) :
    Decimal.toRat ⟨negative, n, k⟩ = if negative then -(n / 10 ^ k : ℚ) else n / 10 ^ k := by
  simp [Decimal.toRat, placeValue, Rat.mkRat_eq_div]

theorem Decimal.toRat_natCast (n : ℕ) : Decimal.toRat ⟨false, n, 0⟩ = n := by
  rw [toRat_eq_div, if_neg Bool.false_ne_true, pow_zero, div_one]

namespace Scalar

theorem round_rat (x : ℚ) :
    round x = if x < 0 then -(⌊-x + 1 / 2⌋ : ℚ) else (⌊x + 1 / 2⌋ : ℚ) := rfl

theorem round_mem_wholeNumbers (x : ℚ) : round x ∈ wholeNumbers := by
  rw [round_rat]
  split_ifs
  · exact neg_mem (intCast_mem_wholeNumbers _)
  · exact intCast_mem_wholeNumbers _

theorem round_intCast (n : ℤ) : round (n : ℚ) = n := by
  have floor : ∀ k : ℤ, ⌊(k : ℚ) + 1 / 2⌋ = k := by
    intro k
    refine Int.floor_eq_iff.2 ⟨?_, ?_⟩ <;> linarith
  have hneg : ⌊-(n : ℚ) + 1 / 2⌋ = -n := by
    rw [← Int.cast_neg, floor]
  rw [round_rat, hneg, floor, Int.cast_neg, neg_neg, ite_self]

/-- A whole number of tenths. -/
def IsTenths (x : ℚ) : Prop := ∃ n : ℤ, x = n / 10

theorem toTenths_isTenths (x : ℚ) : IsTenths (toTenths x) := by
  obtain ⟨n, hn⟩ := mem_wholeNumbers.1 (round_mem_wholeNumbers (x * ofInt 10))
  refine ⟨n, ?_⟩
  rw [toTenths, ← hn]
  rfl

theorem IsTenths.toTenths_eq {x : ℚ} (h : IsTenths x) : toTenths x = x := by
  obtain ⟨n, rfl⟩ := h
  have hten : (ofInt 10 : ℚ) = 10 := rfl
  rw [toTenths, hten, div_mul_cancel₀ _ (by norm_num), round_intCast]

theorem IsTenths.neg {x : ℚ} (h : IsTenths x) : IsTenths (-x) := by
  obtain ⟨n, rfl⟩ := h
  exact ⟨-n, by push_cast; ring⟩

/-- **Rounding to tenths twice is rounding once.** -/
theorem toTenths_toTenths (x : ℚ) : toTenths (toTenths x : ℚ) = toTenths x :=
  (toTenths_isTenths x).toTenths_eq

theorem shortText_toTenths (x : ℚ) : shortText (toTenths x : ℚ) = shortText x := by
  rw [shortText, shortText, toTenths_toTenths]

/-- A number whose digits end at the `k`-th place prints as these digits. -/
theorem fixedText_exact {t : ℚ} {k n : ℕ} (h : |t| * 10 ^ k = n) :
    (exact t).fixedText k = Exact.signed (decide (t < 0)) (Digits.pointed k n) := by
  have hexact : exact t = .finite (decide (t < 0)) |t| := by
    by_cases ht : t < 0
    · rw [abs_of_neg ht, decide_eq_true ht]
      exact if_pos ht
    · rw [abs_of_nonneg (not_lt.1 ht), decide_eq_false ht]
      exact if_neg ht
  rw [hexact, Exact.fixedText, Exact.textWith, h, roundHalfEven_natCast]

theorem toRat_decimal {t : ℚ} {k n : ℕ} (h : |t| * 10 ^ k = n) :
    Decimal.toRat ⟨decide (t < 0), n, k⟩ = t := by
  have hdiv : (n : ℚ) / 10 ^ k = |t| := by
    rw [← h, mul_div_cancel_right₀ _ (by positivity)]
  rw [Decimal.toRat_eq_div, hdiv]
  simp only [decide_eq_true_eq]
  split_ifs with ht
  · rw [abs_of_neg ht, neg_neg]
  · exact abs_of_nonneg (not_lt.1 ht)

theorem shortText_zero : shortText (0 : ℚ) = ['0'] := by
  have hzero : (toTenths 0 : ℚ) = 0 := IsTenths.toTenths_eq ⟨0, by norm_num⟩
  rw [shortText]
  exact if_pos (beq_iff_eq.2 hzero)

/-- A whole number of tenths prints its digits, with a tenth if it is no whole number. -/
theorem IsTenths.shortText_eq {t : ℚ} (ht : IsTenths t) (hne : t ≠ 0) {k n : ℕ}
    (hk : (if isWhole t then 0 else 1) = k) (h : |t| * 10 ^ k = n) :
    shortText t = Exact.signed (decide (t < 0)) (Digits.pointed k n) := by
  have hzero : ¬ (t == (ofInt 0 : ℚ)) = true := fun heq => hne (beq_iff_eq.1 heq)
  rw [shortText]
  simp only [ht.toTenths_eq, if_neg hzero, hk]
  exact fixedText_exact h

/-- The opposite of a number above zero prints as that number does, with a minus sign. -/
theorem IsTenths.shortText_signed {t : ℚ} (ht : IsTenths t) (hpos : 0 < t) {k n : ℕ}
    (hk : (if isWhole t then 0 else 1) = k) (h : t * 10 ^ k = n) (negative : Bool) :
    shortText (if negative then -t else t) = Exact.signed negative (Digits.pointed k n) := by
  cases negative with
  | false =>
    have htext := ht.shortText_eq hpos.ne' hk (n := n) (by rw [abs_of_pos hpos, h])
    rwa [decide_eq_false hpos.not_gt] at htext
  | true =>
    have hwhole : isWhole (-t) = isWhole t := by
      rw [Bool.eq_iff_iff, isWhole_iff, isWhole_iff, neg_mem_iff]
    have htext := ht.neg.shortText_eq (neg_ne_zero.2 hpos.ne') (k := k) (n := n)
      (by rw [hwhole, hk]) (by rw [abs_neg, abs_of_pos hpos, h])
    rwa [decide_eq_true (neg_neg_of_pos hpos)] at htext

/-- A whole number other than zero prints without a point. -/
theorem shortText_natCast {n : ℕ} (hn : n ≠ 0) (negative : Bool) :
    shortText (if negative then -(n : ℚ) else n) = Exact.signed negative (Digits.ofNat n) := by
  have htenths : IsTenths (n : ℚ) := ⟨n * 10, by push_cast; ring⟩
  have hwhole : isWhole (n : ℚ) = true :=
    (isWhole_iff _).2 (mem_wholeNumbers.2 ⟨n, Int.cast_natCast n⟩)
  exact htenths.shortText_signed (k := 0) (Nat.cast_pos.2 (Nat.pos_of_ne_zero hn))
    (if_pos hwhole) (mul_one _) negative

/-- A number with a tenth other than zero prints with it. -/
theorem shortText_natCast_div {n : ℕ} (hn : n % 10 ≠ 0) (negative : Bool) :
    shortText (if negative then -(n / 10 : ℚ) else n / 10) =
      Exact.signed negative (Digits.pointed 1 n) := by
  have htenths : IsTenths (n / 10 : ℚ) := ⟨n, by rw [Int.cast_natCast]⟩
  have hpos : (0 : ℚ) < n := Nat.cast_pos.2 (by omega)
  have hwhole : ¬ isWhole (n / 10 : ℚ) = true := by
    intro hwhole
    obtain ⟨m, hm⟩ := mem_wholeNumbers.1 ((isWhole_iff _).1 hwhole)
    have hten : (m : ℚ) * 10 = n := by
      rw [hm]
      ring
    have hten' : m * 10 = n := by exact_mod_cast hten
    omega
  exact htenths.shortText_signed (k := 1) (by positivity) (if_neg hwhole) (by ring) negative

/-- **The text of a value is a literal for the value rounded to tenths.** -/
theorem exists_shortText_eq (x : ℚ) : ∃ (negative : Bool) (k n : ℕ),
    shortText x = Exact.signed negative (Digits.pointed k n) ∧
      Decimal.toRat ⟨negative, n, k⟩ = toTenths x := by
  rw [← shortText_toTenths]
  generalize ht : (toTenths x : ℚ) = t
  have htenths : IsTenths t := ht ▸ toTenths_isTenths x
  rcases eq_or_ne t 0 with rfl | hne
  · refine ⟨false, 0, 0, shortText_zero, ?_⟩
    rw [Decimal.toRat_eq_div]
    simp
  by_cases hw : isWhole t = true
  · obtain ⟨n, rfl⟩ := (isWhole_iff t).1 hw
    have h : |(n : ℚ)| * 10 ^ 0 = n.natAbs := by
      rw [pow_zero, mul_one, Nat.cast_natAbs, Int.cast_abs]
    exact ⟨_, _, _, htenths.shortText_eq hne (if_pos hw) h, toRat_decimal h⟩
  · obtain ⟨n, rfl⟩ := htenths
    have h : |(n / 10 : ℚ)| * 10 ^ 1 = n.natAbs := by
      rw [pow_one, abs_div, abs_of_pos (by norm_num : (0 : ℚ) < 10),
        div_mul_cancel₀ _ (by norm_num), Nat.cast_natAbs, Int.cast_abs]
    exact ⟨_, _, _, IsTenths.shortText_eq ⟨n, rfl⟩ hne (if_neg hw) h, toRat_decimal h⟩

end Scalar
end DiceFormula
