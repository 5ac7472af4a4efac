/-
# Tenths of doubles

A whole double divided by ten is rounded to a double `t`, which is no tenth in general.  But it
behaves as one.  Whatever is written for it, to a tenth, is nearest to `t` again
(`nearest_tenth_of_abs_le`), and ten times `t`, rounded to a double and to a whole number and
divided by ten, is `t` again (`nearest_tenth_ten_times`).

With `t = k * q` for the step `q` of its grid, and `2 ^ 52 ≤ k ≤ 2 ^ 53`, ten times `t` is at
most `5 * q` away from the whole number.

| step | why |
| --- | --- |
| `q ≤ 1/16` | less than a half away, so the whole number comes back |
| `1/8 ≤ q` | an error of less than `5 * q` is less than half a step of `t` |

Above `2 ^ 56 * q` the product is rounded to multiples of `16 * q`, which could be too coarse;
but there the whole number is itself such a multiple, and it is the nearest.
-/

import DiceFormula.Proofs.Number.Nearest

namespace DiceFormula

/-- A double next to the tenth part of a whole number, by its number of steps. -/
structure TenthStep (n : ℕ) (t : ℚ) (k : ℕ) (e : ℤ) : Prop where
  eq : t = k * 2 ^ e
  normal : -1074 < e
  le_steps : 2 ^ 52 ≤ k
  steps_le : k ≤ 2 ^ 53
  near : |t - n / 10| ≤ 2 ^ e / 2
  low : 2 ^ 52 * 2 ^ e ≤ (n : ℚ) / 10
  high : (n : ℚ) / 10 < 2 ^ 53 * 2 ^ e

theorem exists_tenthStep {n : ℕ} (hn : 1 ≤ n) : ∃ k e, TenthStep n (nearest (n / 10)) k e := by
  have hn' : (1 : ℚ) ≤ n := by exact_mod_cast hn
  have hv : (0 : ℚ) < n / 10 := by positivity
  have hnormal : -1073 ≤ ulpExponent ((n : ℚ) / 10) := by
    refine le_ulpExponent_of_le ?_
    calc (2 : ℚ) ^ 52 * 2 ^ (-1073 : ℤ) = 2 ^ (52 + -1073 : ℤ) := by rw [two_zpow_add]; norm_cast
      _ ≤ 2 ^ (-4 : ℤ) := two_zpow_le_iff.2 (by norm_num)
      _ ≤ n / 10 := by norm_num; linarith
  have hlow := le_of_le_ulpExponent hv (by omega) (le_refl (ulpExponent ((n : ℚ) / 10)))
  have hhigh := lt_of_ulpExponent_le (le_refl (ulpExponent ((n : ℚ) / 10)))
  have hsteps : ((2 ^ 52 : ℕ) : ℚ) ≤ (n / 10) / 2 ^ ulpExponent ((n : ℚ) / 10) := by
    rw [le_div_iff₀ (two_zpow_pos _)]
    exact_mod_cast hlow
  refine ⟨_, _, rfl, by omega, le_roundHalfEven hsteps, roundHalfEven_ulp_le hv, ?_, hlow, hhigh⟩
  rw [abs_sub_comm]
  exact abs_sub_nearest_le hv.le

namespace TenthStep

variable {n : ℕ} {t : ℚ} {k : ℕ} {e : ℤ}

theorem ten_times_near (h : TenthStep n t k e) : |10 * t - n| ≤ 5 * 2 ^ e := by
  have hnear := abs_le.1 h.near
  rw [abs_le]
  constructor <;> linarith

theorem low_le (h : TenthStep n t k e) : 2 ^ 52 * 2 ^ e ≤ t := by
  rw [h.eq]
  exact mul_le_mul_of_nonneg_right (by exact_mod_cast h.le_steps) (two_zpow_pos e).le

theorem le_high (h : TenthStep n t k e) : t ≤ 2 ^ 53 * 2 ^ e := by
  rw [h.eq]
  exact mul_le_mul_of_nonneg_right (by exact_mod_cast h.steps_le) (two_zpow_pos e).le

theorem pos (h : TenthStep n t k e) : 0 < t :=
  lt_of_lt_of_le (mul_pos (by norm_num) (two_zpow_pos e)) h.low_le

/-- What is less than `5 * 2 ^ e` away from ten times a double, has it as its tenth. -/
theorem nearest_eq (h : TenthStep n t k e) {m : ℚ} (hm : |10 * t - m| < 5 * 2 ^ e)
    (hlow : 10 * (2 ^ 52 * 2 ^ e) ≤ m) : nearest (m / 10) = t := by
  have hpos : (0 : ℚ) < 2 ^ 52 * 2 ^ e := mul_pos (by norm_num) (two_zpow_pos e)
  rw [h.eq] at hm ⊢
  refine nearest_eq_of_abs_lt (by linarith) h.normal.le h.steps_le (by linarith) ?_
  rw [abs_lt] at hm ⊢
  constructor <;> linarith

/-- The step is at most a sixteenth, or at least an eighth. -/
theorem step_le_or (e : ℤ) : (2 : ℚ) ^ e ≤ 1 / 16 ∨ (-3 ≤ e ∧ (1 : ℚ) / 8 ≤ 2 ^ e) := by
  rcases le_or_gt e (-4) with he | he
  · left
    calc (2 : ℚ) ^ e ≤ 2 ^ (-4 : ℤ) := two_zpow_le_iff.2 he
      _ = 1 / 16 := by norm_num
  · right
    refine ⟨by omega, ?_⟩
    calc (1 : ℚ) / 8 = 2 ^ (-3 : ℤ) := by norm_num
      _ ≤ 2 ^ e := two_zpow_le_iff.2 (by omega)

end TenthStep

/-- **What is written to a tenth is read back.**  A whole number of tenths next to a double that
is next to a whole number of tenths is nearest to that double. -/
theorem nearest_tenth_of_abs_le {n m : ℕ} (hn : 1 ≤ n)
    (h : |10 * nearest (n / 10) - m| ≤ 1 / 2) : nearest (m / 10) = nearest (n / 10) := by
  obtain ⟨k, e, hstep⟩ := exists_tenthStep hn
  generalize ht : nearest (n / 10) = t at *
  rcases TenthStep.step_le_or e with hsmall | ⟨he, hlarge⟩
  · -- The two whole numbers are less than one apart.
    have hnear := abs_le.1 hstep.ten_times_near
    rw [abs_le] at h
    have hle : m ≤ n := by
      have : (m : ℚ) < n + 1 := by linarith
      exact Nat.lt_succ_iff.1 (by exact_mod_cast this)
    have hge : n ≤ m := by
      have : (n : ℚ) < m + 1 := by linarith
      exact Nat.lt_succ_iff.1 (by exact_mod_cast this)
    rw [le_antisymm hle hge, ht]
  · rcases le_or_gt (10 * (2 ^ 52 * 2 ^ e)) (m : ℚ) with hlow | hlow
    · exact hstep.nearest_eq (h.trans_lt (by linarith)) hlow
    · -- Below the grid of the double `m` can only be ten times the double.
      obtain ⟨j, hj⟩ := Int.eq_ofNat_of_zero_le (by omega : 0 ≤ 52 + e)
      have hpow : (2 : ℚ) ^ 52 * 2 ^ e = (2 ^ j : ℕ) := by
        rw [Nat.cast_pow, Nat.cast_two, ← zpow_natCast, ← zpow_natCast, ← two_zpow_add]
        exact congrArg _ hj
      have hlow' := hstep.low_le
      rw [hpow] at hlow hlow'
      rw [abs_le] at h
      have hlt : m < 10 * 2 ^ j := by exact_mod_cast hlow
      have hge : 10 * 2 ^ j < m + 1 := by
        have : (10 : ℚ) * (2 ^ j : ℕ) < m + 1 := by linarith
        exact_mod_cast this
      omega

/-- A double from `2 ^ 52 * 2 ^ e` on is a number of steps `2 ^ e`. -/
theorem IsDouble.exists_steps {x : ℚ} (hx : IsDouble x) {e : ℤ} (h : 2 ^ 52 * 2 ^ e ≤ x) :
    ∃ m : ℕ, x = m * 2 ^ e := by
  obtain ⟨k, e', hk, -, rfl⟩ := hx
  have hlt : (2 : ℚ) ^ (52 + e) < 2 ^ (53 + e') := by
    calc (2 : ℚ) ^ (52 + e) = 2 ^ 52 * 2 ^ e := by rw [two_zpow_add]; norm_num
      _ ≤ k * 2 ^ e' := h
      _ < 2 ^ 53 * 2 ^ e' := mul_lt_mul_of_pos_right (by exact_mod_cast hk) (two_zpow_pos e')
      _ = 2 ^ (53 + e') := by rw [two_zpow_add]; norm_num
  obtain ⟨j, hj⟩ := Int.le.dest (by have := two_zpow_lt_iff.1 hlt; omega : e ≤ e')
  refine ⟨k * 2 ^ j, ?_⟩
  rw [Nat.cast_mul, Nat.cast_pow, Nat.cast_two, mul_assoc, ← zpow_natCast, ← two_zpow_add,
    add_comm (j : ℤ), hj]

namespace TenthStep

variable {n : ℕ} {t : ℚ} {k : ℕ} {e : ℤ}

/-- Powers of two next to a step, in steps. -/
theorem scaled (a : ℕ) (b : ℤ) (e : ℤ) : (2 : ℚ) ^ a * 2 ^ (e + b) = 2 ^ a * 2 ^ b * 2 ^ e := by
  rw [two_zpow_add]
  ring

theorem ten_times_pos (h : TenthStep n t k e) : 0 < 10 * t := mul_pos (by norm_num) h.pos

/-- On a fine grid ten times the double, rounded twice, is the whole number. -/
theorem floor_ten_times (h : TenthStep n t k e) (he : e ≤ -5) :
    ⌊nearest (10 * t) + 1 / 2⌋ = (n : ℤ) := by
  have hstep : (2 : ℚ) ^ e ≤ 1 / 32 := by
    calc (2 : ℚ) ^ e ≤ 2 ^ (-5 : ℤ) := two_zpow_le_iff.2 he
      _ = 1 / 32 := by norm_num
  have hulp : ulpExponent (10 * t) ≤ e + 4 := by
    refine ulpExponent_le h.ten_times_pos (by have := h.normal; omega) ?_
    have hhigh := h.le_high
    have hpos := two_zpow_pos e
    rw [scaled]
    norm_num
    linarith
  have hround := abs_le.1 (abs_sub_nearest_le h.ten_times_pos.le)
  have hnear := abs_le.1 h.ten_times_near
  have hle : (2 : ℚ) ^ ulpExponent (10 * t) ≤ 2 ^ e * 16 := by
    calc (2 : ℚ) ^ ulpExponent (10 * t) ≤ 2 ^ (e + 4) := two_zpow_le_iff.2 hulp
      _ = 2 ^ e * 16 := by rw [two_zpow_add]; norm_num
  rw [Int.floor_eq_iff]
  push_cast
  constructor <;> linarith

/-- Where the step is a sixteenth, ten times the double may be half-way between two doubles, of
which the whole number is the even one. -/
theorem nearest_ten_times_of_sixteenth (h : TenthStep n t k (-4)) : nearest (10 * t) = n := by
  have hstep : (2 : ℚ) ^ (-4 : ℤ) = 1 / 16 := by norm_num
  have hnear := abs_le.1 h.ten_times_near
  have hlow := h.low_le
  have hhigh := h.le_high
  have ht := h.ten_times_pos
  rw [hstep] at hnear hlow hhigh
  rcases le_or_gt ((2 : ℚ) ^ 52) (10 * t) with hge | hlt
  · have hulp : ulpExponent (10 * t) = 0 := by
      refine ulpExponent_eq ht ?_ (.inl ⟨by norm_num, ?_⟩)
      · norm_num at hhigh ⊢
        linarith
      · rwa [zpow_zero, mul_one]
    rw [nearest, hulp, zpow_zero, div_one, mul_one, Nat.cast_inj]
    refine roundHalfEven_eq_of_abs_lt ht.le (abs_lt.2 ⟨?_, ?_⟩) <;> linarith
  · have hhalf : (2 : ℚ) ^ (-1 : ℤ) = 1 / 2 := by norm_num
    have hulp : ulpExponent (10 * t) = -1 := by
      refine ulpExponent_eq ht ?_ (.inl ⟨by norm_num, ?_⟩) <;> rw [hhalf]
      · norm_num at hlt ⊢
        linarith
      · norm_num at hlow ⊢
        linarith
    -- Twenty times the double and twice the whole number differ by a number of quarters.
    have heq : t = k * (1 / 16) := by rw [h.eq, hstep]
    have hquarters : (-2 : ℤ) ≤ 5 * k - 8 * n ∧ (5 * k - 8 * n : ℤ) ≤ 2 := by
      have h₁ : (-3 : ℚ) < 5 * k - 8 * n := by linarith
      have h₂ : (5 * k - 8 * n : ℚ) < 3 := by linarith
      have h₁' : (-3 : ℤ) < 5 * k - 8 * n := by exact_mod_cast h₁
      have h₂' : (5 * k - 8 * n : ℤ) < 3 := by exact_mod_cast h₂
      omega
    have h₁ : (-2 : ℚ) ≤ 5 * k - 8 * n := by exact_mod_cast hquarters.1
    have h₂ : (5 * k - 8 * n : ℚ) ≤ 2 := by exact_mod_cast hquarters.2
    have hround : roundHalfEven (10 * t / (1 / 2)) = 2 * n := by
      refine (roundHalfEven_eq_iff (by linarith)).2 ⟨abs_le.2 ?_, fun _ => even_two_mul n⟩
      rw [heq]
      push_cast
      constructor <;> linarith
    rw [nearest, hulp, hhalf, hround]
    push_cast
    ring

/-- On a coarse grid ten times the double is rounded to a whole number with a small error, if
it lies in a grid of steps that are eight times as large. -/
theorem exists_nearest_ten_times (h : TenthStep n t k e) (he : -3 ≤ e)
    (hlt : 10 * t < 2 ^ 56 * 2 ^ e) :
    ∃ m : ℕ, nearest (10 * t) = m ∧ |10 * t - m| < 5 * 2 ^ e ∧ 10 * (2 ^ 52 * 2 ^ e) ≤ (m : ℚ) ∧
      (m : ℚ) < 2 ^ 56 * 2 ^ e := by
  have ht := h.ten_times_pos
  have hpos := two_zpow_pos e
  have hlow := h.low_le
  have height : (2 : ℚ) ^ (e + 3) = 8 * 2 ^ e := by rw [two_zpow_add]; norm_num [mul_comm]
  have hulp : ulpExponent (10 * t) = e + 3 := by
    refine ulpExponent_eq ht ?_ (.inl ⟨by omega, ?_⟩) <;> rw [height] <;> linarith
  have hsteps : 10 * t / 2 ^ (e + 3) = 5 * k / 4 := by
    rw [h.eq, height]
    field_simp
    ring
  have hround : nearest (10 * t) = roundHalfEven (5 * k / 4 : ℚ) * (8 * 2 ^ e) := by
    rw [nearest, hulp, hsteps, height]
  have hnonneg : (0 : ℚ) ≤ 5 * k / 4 := by positivity
  have hspec := abs_le.1 (roundHalfEven_spec hnonneg).1
  have hge : 5 * 2 ^ 50 ≤ roundHalfEven (5 * k / 4 : ℚ) := by
    refine le_roundHalfEven ?_
    have hk : ((2 ^ 52 : ℕ) : ℚ) ≤ k := by exact_mod_cast h.le_steps
    push_cast at hk ⊢
    linarith
  have hless : (roundHalfEven (5 * k / 4 : ℚ) : ℚ) < 2 ^ 53 := by
    -- A multiple of five below `2 ^ 55` is at least three below it.
    have hk : 5 * k < 2 ^ 55 := by
      have : (5 * k : ℚ) < 2 ^ 55 := by
        rw [h.eq] at hlt
        by_contra hge
        nlinarith [not_lt.1 hge]
      exact_mod_cast this
    have hk' : 5 * k + 3 ≤ 2 ^ 55 := by omega
    have hk'' : (5 * k + 3 : ℚ) ≤ 2 ^ 55 := by exact_mod_cast hk'
    linarith
  obtain ⟨j, hj⟩ := Int.eq_ofNat_of_zero_le (by omega : 0 ≤ e + 3)
  have height' : (8 * 2 ^ e : ℚ) = (2 ^ j : ℕ) := by
    rw [← height, hj, zpow_natCast, Nat.cast_pow, Nat.cast_two]
  generalize roundHalfEven (5 * k / 4 : ℚ) = r at *
  refine ⟨r * 2 ^ j, ?_, ?_, ?_, ?_⟩ <;> rw [Nat.cast_mul, ← height']
  · rw [hround]
  · have herror : 10 * t - r * (8 * 2 ^ e) = (5 * k / 4 - r) * (8 * 2 ^ e) := by
      rw [← hsteps, sub_mul, height, div_mul_cancel₀ _ (by positivity)]
    rw [herror, abs_lt]
    constructor <;> nlinarith
  · have hge' : (5 * 2 ^ 50 : ℚ) ≤ r := by exact_mod_cast hge
    nlinarith
  · nlinarith

/-- Beyond, the whole number is a multiple of the steps there, and nearest. -/
theorem nearest_ten_times_of_le (h : TenthStep n t k e) (hn : IsDouble n)
    (hge : 2 ^ 56 * 2 ^ e ≤ 10 * t) : nearest (10 * t) = n := by
  have ht := h.ten_times_pos
  have hpos := two_zpow_pos e
  have hlow := h.low
  have hhigh := h.le_high
  have hnear := abs_le.1 h.ten_times_near
  have height : (2 : ℚ) ^ (e + 3) = 8 * 2 ^ e := by rw [two_zpow_add]; norm_num [mul_comm]
  have hsixteen : (2 : ℚ) ^ (e + 4) = 16 * 2 ^ e := by rw [two_zpow_add]; norm_num [mul_comm]
  have hle : 2 ^ 56 * 2 ^ e ≤ (n : ℚ) := by
    obtain ⟨m, hm⟩ := hn.exists_steps (e := e + 3) (by rw [height]; linarith)
    by_contra hlt
    rw [height] at hm
    have hm' : m < 2 ^ 53 := by
      have : (m : ℚ) < 2 ^ 53 := by
        by_contra hge
        nlinarith [not_lt.1 hge, not_le.1 hlt]
      exact_mod_cast this
    have hm'' : (m + 1 : ℚ) ≤ 2 ^ 53 := by exact_mod_cast hm'
    nlinarith
  obtain ⟨m, hm⟩ := hn.exists_steps (e := e + 4) (by rw [hsixteen]; linarith)
  have hulp : ulpExponent (10 * t) = e + 4 := by
    refine ulpExponent_eq ht ?_ (.inl ⟨by have := h.normal; omega, ?_⟩) <;> rw [hsixteen] <;>
      linarith
  rw [hsixteen] at hm
  have hround : roundHalfEven (10 * t / 2 ^ (e + 4)) = m := by
    have hsteps : 10 * t = 10 * t / 2 ^ (e + 4) * (16 * 2 ^ e) := by
      rw [← hsixteen, div_mul_cancel₀ _ (two_zpow_pos _).ne']
    refine roundHalfEven_eq_of_abs_lt (div_ulp_nonneg ht.le _) (abs_lt.2 ⟨?_, ?_⟩)
    · by_contra hfar
      nlinarith [not_lt.1 hfar]
    · by_contra hfar
      nlinarith [not_lt.1 hfar]
  rw [nearest, hulp, hround, hm, hsixteen]

end TenthStep

/-- **Rounding to tenths twice is rounding once.**  The double next to a tenth of a whole double
can be multiplied by ten, and ten times that double, rounded to a whole number, has it as its
tenth again. -/
theorem nearest_tenth_ten_times {n : ℕ} (hn : 1 ≤ n) (hdouble : IsDouble n)
    (hlimit : (n : ℚ) < doubleLimit) :
    nearest (10 * nearest (n / 10)) < doubleLimit ∧
      nearest (⌊nearest (10 * nearest (n / 10)) + 1 / 2⌋ / 10) = nearest (n / 10) := by
  obtain ⟨k, e, h⟩ := exists_tenthStep hn
  generalize ht : nearest (n / 10) = t at *
  have hwhole (m : ℕ) : ⌊(m : ℚ) + 1 / 2⌋ = (m : ℤ) := by
    rw [Int.floor_eq_iff]
    push_cast
    constructor <;> linarith
  have heq (hround : nearest (10 * t) = n) : nearest (10 * t) < doubleLimit ∧
      nearest (⌊nearest (10 * t) + 1 / 2⌋ / 10) = t := by
    rw [hround, hwhole, Int.cast_natCast]
    exact ⟨hlimit, ht⟩
  rcases lt_trichotomy e (-4) with he | rfl | he
  · have hfloor := h.floor_ten_times (by omega)
    rw [hfloor, Int.cast_natCast]
    refine ⟨?_, ht⟩
    have hless : nearest (10 * t) + 1 / 2 < n + 1 := by
      have := (Int.floor_eq_iff.1 hfloor).2
      rwa [Int.cast_natCast] at this
    have hstep : (2 : ℚ) ^ e ≤ 1 := by
      rw [← zpow_zero (2 : ℚ)]
      exact two_zpow_le_iff.2 (by omega)
    have hhigh := h.high
    calc nearest (10 * t) < 2 ^ (57 : ℤ) := by norm_num; linarith
      _ ≤ doubleLimit := two_zpow_le_iff.2 (by norm_num)
  · exact heq h.nearest_ten_times_of_sixteenth
  · rcases lt_or_ge (10 * t) (2 ^ 56 * 2 ^ e) with hlt | hge
    · obtain ⟨m, hm, hnear, hlow, hless⟩ := h.exists_nearest_ten_times (by omega) hlt
      rw [hm, hwhole, Int.cast_natCast]
      refine ⟨hless.trans_le ?_, h.nearest_eq hnear hlow⟩
      have hpow (a : ℕ) : (2 : ℚ) ^ a * 2 ^ e = 2 ^ (a + e : ℤ) := by
        rw [two_zpow_add, zpow_natCast]
      have hexp : (2 : ℚ) ^ (55 + e : ℤ) < 2 ^ (1024 : ℤ) := by
        have hlow := h.low
        have hpos := two_zpow_pos e
        have hpow := hpow 55
        push_cast at hpow
        rw [← hpow]
        refine lt_of_le_of_lt ?_ hlimit
        linarith
      rw [hpow]
      exact two_zpow_le_iff.2 (by have := two_zpow_lt_iff.1 hexp; push_cast; omega)
    · exact heq (h.nearest_ten_times_of_le hdouble hge)

end DiceFormula
