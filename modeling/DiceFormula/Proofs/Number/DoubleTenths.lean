/-
# Tenths of doubles

Ten times a double may be too large, and then rounding to tenths gives an infinity, whose text
is no number (`Scalar.mem_shortText_of_large`).  Otherwise the text of a double is a literal, and
the double that is read from it is the one rounded to tenths: rounding again changes nothing, so
it prints the same (`Scalar.settles_of_isFinite`).

The rounded value is the double next to a tenth of a whole double.  What is printed is a whole
number of tenths next to that (`nearest_tenth_of_abs_le`), and ten times that is rounded to the
same whole number, or to one with the same tenth (`nearest_tenth_ten_times`).
-/

import DiceFormula.Proofs.Expression.Normalisation
import DiceFormula.Proofs.Number.Arithmetic
import DiceFormula.Proofs.Number.NearestTenth

namespace DiceFormula
namespace Scalar

variable {x y : Float} {a : Bool} {u : ℚ}

theorem exact_ten : exact (ofInt 10 : Float) = .finite false 10 := by
  have h := exact_toFloat false (n := 10) (by norm_num)
  rwa [Nat.cast_ofNat] at h

theorem exact_mul_ten (hx : exact x = .finite a u) :
    exact (x * ofInt 10) = .rounded a (u * 10) := by
  have h := exact_mul hx exact_ten
  rwa [Bool.xor_false] at h

theorem isFinite_mul_ten_iff (hx : exact x = .finite a u) :
    isFinite (x * ofInt 10) = true ↔ nearest (u * 10) < doubleLimit := by
  rw [isFinite_iff, exact_mul_ten hx, Exact.rounded]
  split_ifs with h
  · exact ⟨fun _ => h, fun _ => ⟨_, _, rfl⟩⟩
  · exact ⟨by rintro ⟨_, _, ⟨⟩⟩, fun hlt => absurd hlt h⟩

/-- A tenth of what is not too large is not too large either. -/
theorem nearest_tenth_lt {n : ℕ} (h : (n : ℚ) < doubleLimit) : nearest (n / 10) < doubleLimit := by
  rcases Nat.eq_zero_or_pos n with rfl | hn
  · rw [Nat.cast_zero, zero_div, nearest_zero]
    exact doubleLimit_pos
  · have hlt : (2 : ℚ) ^ (1023 : ℤ) < doubleLimit := two_zpow_lt_iff.2 (by norm_num)
    have hdouble : IsDouble (2 ^ (1023 : ℤ)) := ⟨1, 1023, by norm_num, by norm_num, by simp⟩
    have hhalf : doubleLimit = 2 * 2 ^ (1023 : ℤ) := by
      have h := two_zpow_add 1 1023
      rwa [zpow_one] at h
    have hle : (n / 10 : ℚ) ≤ 2 ^ (1023 : ℤ) := by
      have hpos := two_zpow_pos 1023
      rw [hhalf] at h
      generalize (2 : ℚ) ^ (1023 : ℤ) = d at h hpos ⊢
      linarith
    exact (hdouble.nearest_le (by positivity) hle).trans_lt hlt

/-- **The double rounded to tenths.** -/
theorem exists_exact_toTenths (hx : exact x = .finite a u) (h : nearest (u * 10) < doubleLimit) :
    ∃ n : ℕ, (n : ℤ) = ⌊nearest (u * 10) + 1 / 2⌋ ∧ IsDouble n ∧ (n : ℚ) < doubleLimit ∧
      exact (toTenths x) = .finite a (nearest (n / 10)) := by
  have hten : exact (x * ofInt 10) = .finite a (nearest (u * 10)) := by
    rw [exact_mul_ten hx, Exact.rounded, if_pos h]
  have hround := exact_round hten
  obtain ⟨hnonneg, hdouble, hlt⟩ := isDouble_of_exact hround
  obtain ⟨n, hn⟩ := Int.eq_ofNat_of_zero_le (by exact_mod_cast hnonneg)
  rw [hn, Int.cast_natCast] at hround hdouble hlt
  refine ⟨n, hn.symm, hdouble, hlt, ?_⟩
  have hdiv := exact_div hround exact_ten (by norm_num)
  rwa [Bool.xor_false, Exact.rounded, if_pos (nearest_tenth_lt hlt)] at hdiv

/-- **What is rounded to tenths is not rounded again.** -/
theorem toTenths_eq_self {n : ℕ} (hn : 1 ≤ n) (hdouble : IsDouble n)
    (hlimit : (n : ℚ) < doubleLimit) (hy : exact y = .finite a (nearest (n / 10))) : toTenths y = y := by
  obtain ⟨hten, hsame⟩ := nearest_tenth_ten_times hn hdouble hlimit
  rw [mul_comm] at hten hsame
  obtain ⟨m, hm, -, -, htenths⟩ := exists_exact_toTenths hy hten
  rw [← hm, Int.cast_natCast] at hsame
  rw [hsame] at htenths
  exact eq_of_exact_eq htenths hy

/-- **The digits that are printed are read as the rounded value.** -/
theorem nearest_printed {n : ℕ} (hn : 1 ≤ n) {t : Float}
    (ht : exact t = .finite a (nearest (n / 10))) :
    let k := if isWhole t then 0 else 1
    nearest (roundHalfEven (nearest (n / 10) * 10 ^ k) / 10 ^ k) = nearest (n / 10) := by
  have hnonneg := nearest_nonneg (n / 10)
  dsimp only
  split_ifs with hwhole
  · have hfloor := eq_floor_of_isWhole ht hwhole
    obtain ⟨m, hm⟩ := Int.eq_ofNat_of_zero_le (Int.floor_nonneg.2 hnonneg)
    rw [hm, Int.cast_natCast] at hfloor
    have hdouble := (isDouble_of_exact ht).2.1
    rw [pow_zero, mul_one, div_one, hfloor, roundHalfEven_natCast, ← hfloor, hdouble.nearest_eq]
  · refine nearest_tenth_of_abs_le hn ?_
    rw [pow_one, mul_comm 10]
    exact (roundHalfEven_spec (by positivity)).1

theorem shortText_congr (h : toTenths x = toTenths y) : shortText x = shortText y := by
  rw [shortText, shortText, h]

theorem shortText_of_zero (h : exact (toTenths x) = .finite a 0) : shortText x = ['0'] :=
  if_pos (beq_zero_iff.2 ⟨a, h⟩)

/-- A value that is rounded to zero prints as the literal for zero. -/
theorem settles_of_zero (h : exact (toTenths x) = .finite a 0) : Settles x := by
  have hzero : exact (ofDecimal ⟨false, 0, 0⟩ : Float) = .finite false 0 := by
    have hnearest : nearest (((0 : ℕ) : ℚ) / 10 ^ 0) = 0 := by
      rw [Nat.cast_zero, zero_div, nearest_zero]
    have hdecimal := exact_ofDecimal false 0 0 (by rw [hnearest]; exact doubleLimit_pos)
    rwa [hnearest] at hdecimal
  refine ⟨false, 0, 0, shortText_of_zero h, isFinite_iff.2 ⟨_, _, hzero⟩, ?_⟩
  obtain ⟨n, hn, -, -, htenths⟩ := exists_exact_toTenths hzero
    (by rw [zero_mul, nearest_zero]; exact doubleLimit_pos)
  have hn0 : n = 0 := by
    rw [zero_mul, nearest_zero, zero_add] at hn
    norm_num at hn
    exact hn
  rw [hn0, Nat.cast_zero, zero_div, nearest_zero] at htenths
  rw [shortText_of_zero h, shortText_of_zero htenths]

/-- **A double settles if ten times it is not too large.** -/
theorem settles_of_isFinite (hx : isFinite x = true) (h : isFinite (x * ofInt 10) = true) :
    Settles x := by
  obtain ⟨a, u, hx⟩ := isFinite_iff.1 hx
  obtain ⟨n, -, hdouble, hlimit, ht⟩ := exists_exact_toTenths hx ((isFinite_mul_ten_iff hx).1 h)
  rcases Nat.eq_zero_or_pos n with rfl | hn
  · rw [Nat.cast_zero, zero_div, nearest_zero] at ht
    exact settles_of_zero ht
  · have hprinted := nearest_printed hn ht
    dsimp only at hprinted
    generalize hk : (if isWhole (toTenths x) = true then 0 else 1) = k at hprinted
    have htpos : 0 < nearest (n / 10) := by
      have hone : (1 : ℚ) ≤ n := by exact_mod_cast hn
      have hleast : (2 : ℚ) ^ (-1074 : ℤ) ≤ 2 ^ (-4 : ℤ) := two_zpow_le_iff.2 (by norm_num)
      have hsixteenth : (2 : ℚ) ^ (-4 : ℤ) ≤ n / 10 := by
        norm_num
        linarith
      exact nearest_pos (hleast.trans hsixteenth)
    have hnonzero : ¬ (toTenths x == ofInt 0) = true := by
      rw [beq_zero_iff, ht]
      rintro ⟨b, hb⟩
      exact htpos.ne' (Exact.finite.inj hb).2
    have htext : shortText x = Exact.signed a
        (Digits.pointed k (roundHalfEven (nearest (n / 10) * 10 ^ k))) := by
      rw [shortText]
      simp only [hk]
      rw [if_neg hnonzero, ht]
      rfl
    have hy : exact (ofDecimal ⟨a, roundHalfEven (nearest (n / 10) * 10 ^ k), k⟩ : Float) =
        .finite a (nearest (n / 10)) := by
      have hdecimal := exact_ofDecimal a (roundHalfEven (nearest (n / 10) * 10 ^ k)) k
        (by rw [hprinted]; exact nearest_tenth_lt hlimit)
      rwa [hprinted] at hdecimal
    refine ⟨a, k, _, htext, isFinite_iff.2 ⟨_, _, hy⟩, shortText_congr ?_⟩
    rw [toTenths_eq_self hn hdouble hlimit hy]
    exact eq_of_exact_eq hy ht

/-- **A double does not settle if ten times it is too large:** its text is that of an infinity. -/
theorem mem_shortText_of_large (hx : isFinite x = true) (h : ¬ isFinite (x * ofInt 10) = true) :
    'i' ∈ shortText x := by
  obtain ⟨a, u, hx⟩ := isFinite_iff.1 hx
  have hten : exact (x * ofInt 10) = .infinite a := by
    rw [exact_mul_ten hx, Exact.rounded, if_neg (fun hlt => h ((isFinite_mul_ten_iff hx).2 hlt))]
  have hround : exact (round (x * ofInt 10)) = .infinite a := by rw [round_infinite hten, hten]
  have htenths : exact (toTenths x) = .infinite a := by
    have hdiv := exact_div_infinite hround exact_ten
    rwa [Bool.xor_false] at hdiv
  have hnonzero : ¬ (toTenths x == ofInt 0) = true := by
    rw [beq_zero_iff, htenths]
    rintro ⟨_, ⟨⟩⟩
  rw [shortText, if_neg hnonzero, htenths, Exact.fixedText, Exact.textWith, Exact.signed]
  split_ifs <;> simp

end Scalar
end DiceFormula
