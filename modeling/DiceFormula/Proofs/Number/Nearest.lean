/-
# The nearest double

A positive fraction is rounded to a double in its *grid*: the multiples of `2 ^ ulpExponent`,
of which at least `2 ^ 52` and less than `2 ^ 53` lie below it, or fewer on the finest grid,
that of `2 ^ -1074`.  `nearest` is the nearest point of the grid, and of two equally near ones
the even one.  It says nothing about overflow: it goes on above the largest double.

A point of a grid is its own nearest double (`IsDouble.nearest_eq`), and it is that of everything
less than half a step away from it, unless a finer grid begins in between
(`nearest_eq_of_abs_lt`).
-/

import DiceFormula.Proofs.Number.Tenths
import Mathlib.Data.Int.Log
import Mathlib.Tactic.FieldSimp
import Mathlib.Tactic.Ring

namespace DiceFormula

/-! ### The nearest integer -/

/-- The integer part and the rest of a quotient. -/
theorem div_eq_whole_add_rest (m : ℕ) {n : ℕ} (hn : 0 < n) :
    (m / n : ℚ) = (m / n : ℕ) + (m % n : ℕ) / n := by
  have hpos : (0 : ℚ) < n := Nat.cast_pos.2 hn
  have hsplit : (m : ℚ) = n * (m / n : ℕ) + (m % n : ℕ) := by
    exact_mod_cast (Nat.div_add_mod m n).symm
  rw [div_eq_iff hpos.ne', add_mul, div_mul_cancel₀ _ hpos.ne', mul_comm]
  exact hsplit

/-- A fraction that is not negative is a quotient. -/
theorem eq_toNat_div_den {x : ℚ} (hx : 0 ≤ x) : x = x.num.toNat / x.den := by
  have hnum : (x.num.toNat : ℚ) = x.num := by
    exact_mod_cast Int.toNat_of_nonneg (Rat.num_nonneg.2 hx)
  rw [hnum, Rat.num_div_den]

section

variable {rest den : ℕ} (hden : 0 < den)

include hden

theorem div_lt_half_iff : (rest / den : ℚ) < 1 / 2 ↔ 2 * rest < den := by
  rw [div_lt_div_iff₀ (Nat.cast_pos.2 hden) two_pos, one_mul, mul_comm]
  norm_cast

theorem half_lt_div_iff : (1 / 2 : ℚ) < rest / den ↔ den < 2 * rest := by
  rw [div_lt_div_iff₀ two_pos (Nat.cast_pos.2 hden), one_mul, mul_comm]
  norm_cast

theorem div_eq_half_iff : (rest / den : ℚ) = 1 / 2 ↔ 2 * rest = den := by
  rw [div_eq_div_iff (Nat.cast_ne_zero.2 hden.ne') two_ne_zero, one_mul, mul_comm]
  norm_cast

end

/-- What is rounded is at most a half away, and if it is a half away the integer is even. -/
theorem roundHalfEven_spec {x : ℚ} (hx : 0 ≤ x) :
    |x - roundHalfEven x| ≤ 1 / 2 ∧ (|x - roundHalfEven x| = 1 / 2 → Even (roundHalfEven x)) := by
  have hden := x.den_pos
  have hrest : x.num.toNat % x.den < x.den := Nat.mod_lt _ hden
  have hsplit := (eq_toNat_div_den hx).trans (div_eq_whole_add_rest x.num.toNat hden)
  rw [roundHalfEven]
  generalize x.num.toNat / x.den = whole at *
  generalize x.num.toNat % x.den = rest at *
  generalize x.den = den at *
  have hnonneg : (0 : ℚ) ≤ rest / den := by positivity
  have hone : (rest / den : ℚ) < 1 := by
    rw [div_lt_one (Nat.cast_pos.2 hden)]
    exact_mod_cast hrest
  have hup : |x - (whole + 1 : ℕ)| = 1 - rest / den := by
    rw [hsplit, Nat.cast_succ, abs_of_nonpos (by linarith)]
    ring
  have hdown : |x - whole| = rest / den := by
    rw [hsplit, add_sub_cancel_left, abs_of_nonneg hnonneg]
  split_ifs with hless hmore
  · have hhalf := (div_lt_half_iff hden).2 hless
    rw [hdown]
    exact ⟨hhalf.le, fun h => absurd h hhalf.ne⟩
  · have hhalf := (half_lt_div_iff hden).2 hmore
    rw [hup]
    exact ⟨by linarith, fun h => absurd h (by linarith)⟩
  · have hhalf : (rest / den : ℚ) = 1 / 2 := (div_eq_half_iff hden).2 (by omega)
    rcases Nat.mod_two_eq_zero_or_one whole with heven | hodd
    · rw [heven, add_zero, hdown]
      exact ⟨hhalf.le, fun _ => Nat.even_iff.2 heven⟩
    · rw [hodd, hup]
      exact ⟨by linarith, fun _ => Nat.even_iff.2 (by omega)⟩

/-- Two nearest integers that are one apart are both a half away, and not both even. -/
theorem not_lt_of_nearest {x : ℚ} {m n : ℕ} (hm : |x - m| ≤ 1 / 2 ∧ (|x - m| = 1 / 2 → Even m))
    (hn : |x - n| ≤ 1 / 2 ∧ (|x - n| = 1 / 2 → Even n)) : ¬ m < n := by
  intro hlt
  obtain ⟨hm, hevenm⟩ := hm
  obtain ⟨hn, hevenn⟩ := hn
  rw [abs_le] at hm hn
  have hcast : (m : ℚ) + 1 ≤ n := by exact_mod_cast hlt
  have hm' : |x - m| = 1 / 2 := by rw [abs_of_nonneg] <;> linarith
  have hn' : |x - n| = 1 / 2 := by rw [abs_of_nonpos] <;> linarith
  have hnext : n = m + 1 := by
    have : (n : ℚ) = m + 1 := by linarith
    exact_mod_cast this
  have heven := hevenn hn'
  rw [hnext] at heven
  exact Nat.not_even_iff_odd.2 (hevenm hm').add_one heven

/-- **The nearest integer, a half going to the even one.** -/
theorem roundHalfEven_eq_iff {x : ℚ} (hx : 0 ≤ x) {n : ℕ} :
    roundHalfEven x = n ↔ |x - n| ≤ 1 / 2 ∧ (|x - n| = 1 / 2 → Even n) := by
  have hspec := roundHalfEven_spec hx
  refine ⟨fun h => h ▸ hspec, fun h => ?_⟩
  exact le_antisymm (not_lt.1 (not_lt_of_nearest h hspec)) (not_lt.1 (not_lt_of_nearest hspec h))

theorem roundHalfEven_eq_of_abs_lt {x : ℚ} (hx : 0 ≤ x) {n : ℕ} (h : |x - n| < 1 / 2) :
    roundHalfEven x = n :=
  (roundHalfEven_eq_iff hx).2 ⟨h.le, fun heq => absurd heq h.ne⟩

theorem le_roundHalfEven {x : ℚ} {n : ℕ} (h : n ≤ x) : n ≤ roundHalfEven x := by
  have hx : 0 ≤ x := (Nat.cast_nonneg n).trans h
  have hle := abs_le.1 (roundHalfEven_spec hx).1
  have hlt : (n : ℚ) < roundHalfEven x + 1 := by linarith
  exact Nat.lt_succ_iff.1 (by exact_mod_cast hlt)

theorem roundHalfEven_le {x : ℚ} (hx : 0 ≤ x) {n : ℕ} (h : x ≤ n) : roundHalfEven x ≤ n := by
  have hle := abs_le.1 (roundHalfEven_spec hx).1
  have hlt : (roundHalfEven x : ℚ) < n + 1 := by linarith
  exact Nat.lt_succ_iff.1 (by exact_mod_cast hlt)

/-! ### Grids -/

/-- The steps of the grid of a fraction are `2 ^ ulpExponent`. -/
def ulpExponent (v : ℚ) : ℤ := max (Int.log 2 v - 52) (-1074)

/-- The nearest point of the grid of a fraction. -/
def nearest (v : ℚ) : ℚ := roundHalfEven (v / 2 ^ ulpExponent v) * 2 ^ ulpExponent v

/-- A point of a grid. -/
def IsDouble (x : ℚ) : Prop := ∃ (k : ℕ) (e : ℤ), k < 2 ^ 53 ∧ -1074 ≤ e ∧ x = k * 2 ^ e

/-- No double is so large. -/
def doubleLimit : ℚ := 2 ^ (1024 : ℤ)

theorem two_zpow_pos (e : ℤ) : (0 : ℚ) < 2 ^ e := zpow_pos (by norm_num) e

theorem two_zpow_add (a b : ℤ) : (2 : ℚ) ^ (a + b) = 2 ^ a * 2 ^ b := zpow_add₀ (by norm_num) a b

theorem doubleLimit_pos : 0 < doubleLimit := two_zpow_pos 1024

theorem two_zpow_le_iff {a b : ℤ} : (2 : ℚ) ^ a ≤ 2 ^ b ↔ a ≤ b :=
  zpow_le_zpow_iff_right₀ (by norm_num)

theorem two_zpow_lt_iff {a b : ℤ} : (2 : ℚ) ^ a < 2 ^ b ↔ a < b :=
  zpow_lt_zpow_iff_right₀ (by norm_num)

section

variable {v : ℚ} {e : ℤ}

theorem le_ulpExponent (v : ℚ) : -1074 ≤ ulpExponent v := le_max_right _ _

/-- There are less than `2 ^ 53` steps below a fraction. -/
theorem lt_of_ulpExponent_le (h : ulpExponent v ≤ e) : v < 2 ^ 53 * 2 ^ e := by
  have hlog : Int.log 2 v - 52 ≤ e := (le_max_left _ _).trans h
  have hlt := Int.lt_zpow_succ_log_self (b := 2) (by norm_num) v
  push_cast at hlt
  calc v < 2 ^ (Int.log 2 v + 1) := hlt
    _ ≤ 2 ^ (53 + e) := two_zpow_le_iff.2 (by omega)
    _ = 2 ^ 53 * 2 ^ e := by rw [two_zpow_add]; norm_num

/-- And at least `2 ^ 52`, unless the grid is the finest. -/
theorem le_of_le_ulpExponent (hv : 0 < v) (he : -1074 < e) (h : e ≤ ulpExponent v) :
    2 ^ 52 * 2 ^ e ≤ v := by
  have hlog : e ≤ Int.log 2 v - 52 := (le_max_iff.1 h).resolve_right (not_le.2 he)
  have hle := Int.zpow_log_le_self (b := 2) (by norm_num) hv
  push_cast at hle
  calc (2 : ℚ) ^ 52 * 2 ^ e = 2 ^ (52 + e) := by rw [two_zpow_add]; norm_num
    _ ≤ 2 ^ Int.log 2 v := two_zpow_le_iff.2 (by omega)
    _ ≤ v := hle

theorem ulpExponent_le (hv : 0 < v) (he : -1074 ≤ e) (h : v < 2 ^ 53 * 2 ^ e) :
    ulpExponent v ≤ e := by
  by_contra hlt
  have hle := le_of_le_ulpExponent hv (e := e + 1) (by omega) (by omega)
  rw [two_zpow_add] at hle
  linarith

theorem le_ulpExponent_of_le (h : 2 ^ 52 * 2 ^ e ≤ v) : e ≤ ulpExponent v := by
  by_contra hlt
  have hle := lt_of_ulpExponent_le (v := v) (e := e - 1) (by omega)
  rw [sub_eq_add_neg, two_zpow_add] at hle
  norm_num at hle
  linarith

/-- The grid of a fraction. -/
theorem ulpExponent_eq (hv : 0 < v) (hlt : v < 2 ^ 53 * 2 ^ e)
    (hle : (-1074 ≤ e ∧ 2 ^ 52 * 2 ^ e ≤ v) ∨ e = -1074) : ulpExponent v = e := by
  rcases hle with ⟨he, hle⟩ | rfl
  · exact le_antisymm (ulpExponent_le hv he hlt) (le_ulpExponent_of_le hle)
  · exact le_antisymm (ulpExponent_le hv le_rfl hlt) (le_ulpExponent v)

theorem div_ulp_nonneg (hv : 0 ≤ v) (e : ℤ) : 0 ≤ v / 2 ^ e := div_nonneg hv (two_zpow_pos e).le

/-- The nearest double is at most half a step away. -/
theorem abs_sub_nearest_le (hv : 0 ≤ v) : |v - nearest v| ≤ 2 ^ ulpExponent v / 2 := by
  have hpos := two_zpow_pos (ulpExponent v)
  have hle := (roundHalfEven_spec (div_ulp_nonneg hv (ulpExponent v))).1
  have hsplit : v - nearest v =
      (v / 2 ^ ulpExponent v - roundHalfEven (v / 2 ^ ulpExponent v)) * 2 ^ ulpExponent v := by
    rw [nearest, sub_mul, div_mul_cancel₀ _ hpos.ne']
  rw [hsplit, abs_mul, abs_of_pos hpos]
  calc _ ≤ 1 / 2 * 2 ^ ulpExponent v := mul_le_mul_of_nonneg_right hle hpos.le
    _ = _ := by ring

theorem nearest_nonneg (v : ℚ) : 0 ≤ nearest v :=
  mul_nonneg (Nat.cast_nonneg _) (two_zpow_pos _).le

theorem nearest_zero : nearest 0 = 0 := by
  have h : roundHalfEven 0 = 0 := by exact_mod_cast roundHalfEven_natCast 0
  rw [nearest, zero_div, h, Nat.cast_zero, zero_mul]

/-- The nearest double is a number of steps, at most `2 ^ 53` of them. -/
theorem roundHalfEven_ulp_le (hv : 0 < v) : roundHalfEven (v / 2 ^ ulpExponent v) ≤ 2 ^ 53 := by
  refine roundHalfEven_le (div_ulp_nonneg hv.le _) ?_
  rw [div_le_iff₀ (two_zpow_pos _)]
  exact_mod_cast (lt_of_ulpExponent_le le_rfl).le

end

/-- **A double is its own nearest double.** -/
theorem IsDouble.nearest_eq {x : ℚ} (hx : IsDouble x) : nearest x = x := by
  obtain ⟨k, e, hk, he, rfl⟩ := hx
  rcases Nat.eq_zero_or_pos k with rfl | hpos
  · rw [Nat.cast_zero, zero_mul, nearest_zero]
  · have hx : (0 : ℚ) < k * 2 ^ e := mul_pos (Nat.cast_pos.2 hpos) (two_zpow_pos e)
    have hlt : (k : ℚ) * 2 ^ e < 2 ^ 53 * 2 ^ e :=
      mul_lt_mul_of_pos_right (by exact_mod_cast hk) (two_zpow_pos e)
    obtain ⟨j, hj⟩ := Int.le.dest (ulpExponent_le hx he hlt)
    have hsteps : (k : ℚ) * 2 ^ e / 2 ^ ulpExponent (k * 2 ^ e) = (k * 2 ^ j : ℕ) := by
      rw [div_eq_iff (two_zpow_pos _).ne', Nat.cast_mul, mul_assoc, Nat.cast_pow, Nat.cast_two,
        ← zpow_natCast, ← two_zpow_add, add_comm, hj]
    rw [nearest, hsteps, roundHalfEven_natCast, ← hsteps, div_mul_cancel₀ _ (two_zpow_pos _).ne']

/-- **A double is nearest to all that is less than half a step away from it,** on the grid of
the double. -/
theorem nearest_eq_of_abs_lt {v : ℚ} {k : ℕ} {e : ℤ} (hv : 0 < v) (he : -1074 ≤ e)
    (hk : k ≤ 2 ^ 53) (hle : 2 ^ 52 * 2 ^ e ≤ v) (h : |v - k * 2 ^ e| < 2 ^ e / 2) :
    nearest v = k * 2 ^ e := by
  have hpos := two_zpow_pos e
  rw [abs_lt] at h
  rcases lt_or_ge v (2 ^ 53 * 2 ^ e) with hlt | hge
  · have hsteps : v = v / 2 ^ e * 2 ^ e := (div_mul_cancel₀ _ hpos.ne').symm
    have hround : roundHalfEven (v / 2 ^ e) = k := by
      refine roundHalfEven_eq_of_abs_lt (div_ulp_nonneg hv.le e) (abs_lt.2 ⟨?_, ?_⟩)
      · by_contra hlow
        nlinarith [not_lt.1 hlow]
      · by_contra hhigh
        nlinarith [not_lt.1 hhigh]
    rw [nearest, ulpExponent_eq hv hlt (.inl ⟨he, hle⟩), hround]
  · -- The double is the first point of the next grid.
    have hkey : k = 2 ^ 53 := by
      have hlow : (2 : ℚ) ^ 53 - 1 < k := by
        by_contra hlow
        nlinarith [not_lt.1 hlow]
      have hcast : 2 ^ 53 < k + 1 := by
        have : (2 : ℚ) ^ 53 < k + 1 := by linarith
        exact_mod_cast this
      omega
    have hnext : (2 : ℚ) ^ (e + 1) = 2 ^ e * 2 := by rw [two_zpow_add, zpow_one]
    have hv' : ulpExponent v = e + 1 := by
      refine ulpExponent_eq hv ?_ (.inl ⟨by omega, ?_⟩) <;> rw [hnext] <;> rw [hkey] at h <;>
        push_cast at h <;> linarith
    have hsteps : v = v / 2 ^ (e + 1) * (2 ^ e * 2) := by
      rw [← hnext, div_mul_cancel₀ _ (two_zpow_pos _).ne']
    have hround : roundHalfEven (v / 2 ^ (e + 1)) = 2 ^ 52 := by
      refine roundHalfEven_eq_of_abs_lt (div_ulp_nonneg hv.le _) (abs_lt.2 ⟨?_, ?_⟩)
      · by_contra hlow
        push_cast at hlow
        nlinarith [not_lt.1 hlow]
      · by_contra hhigh
        rw [hkey] at h
        push_cast at hhigh h
        nlinarith [not_lt.1 hhigh]
    rw [nearest, hv', hround, hkey, hnext]
    push_cast
    ring

/-- Doubles that bound a value bound the nearest double. -/
theorem IsDouble.nearest_le {v d : ℚ} (hd : IsDouble d) (hv : 0 < v) (h : v ≤ d) :
    nearest v ≤ d := by
  obtain ⟨k, e, hk, he, rfl⟩ := hd
  have hpos := two_zpow_pos (ulpExponent v)
  by_cases hle : ulpExponent v ≤ e
  · have hsteps : (k * 2 ^ e : ℚ) =
        (k * 2 ^ (e - ulpExponent v).toNat : ℕ) * 2 ^ ulpExponent v := by
      push_cast
      rw [mul_assoc, ← zpow_natCast, ← two_zpow_add]
      congr 2
      omega
    rw [hsteps] at h ⊢
    rw [nearest]
    refine mul_le_mul_of_nonneg_right ?_ hpos.le
    exact_mod_cast roundHalfEven_le (div_ulp_nonneg hv.le _) ((div_le_iff₀ hpos).2 h)
  · -- A coarser grid begins above all numbers of the finer one.
    have hlow := le_of_le_ulpExponent hv (e := e + 1) (by omega) (by omega)
    have hk' : (k : ℚ) < 2 ^ 53 := by exact_mod_cast hk
    have hlt := mul_lt_mul_of_pos_right hk' (two_zpow_pos e)
    rw [two_zpow_add, zpow_one] at hlow
    linarith

/-- What is too large stays too large. -/
theorem doubleLimit_le_nearest {v : ℚ} (h : doubleLimit ≤ v) : doubleLimit ≤ nearest v := by
  have hsplit : doubleLimit = 2 ^ 52 * 2 ^ (972 : ℤ) := two_zpow_add 52 972
  have hpos := two_zpow_pos (ulpExponent v)
  have hexp : 972 ≤ ulpExponent v := le_ulpExponent_of_le (hsplit ▸ h)
  have hsteps : 2 ^ 52 ≤ roundHalfEven (v / 2 ^ ulpExponent v) := by
    refine le_roundHalfEven ?_
    rw [le_div_iff₀ hpos]
    exact_mod_cast le_of_le_ulpExponent (doubleLimit_pos.trans_le h) (by omega) le_rfl
  rw [hsplit, nearest]
  have hgrid := two_zpow_le_iff.2 hexp
  have hsteps' : (2 ^ 52 : ℚ) ≤ roundHalfEven (v / 2 ^ ulpExponent v) := by exact_mod_cast hsteps
  exact mul_le_mul hsteps' hgrid (two_zpow_pos _).le (Nat.cast_nonneg _)

/-- What is less than half of the least double is zero. -/
theorem nearest_eq_zero {v : ℚ} (hv : 0 < v) (h : v < 2 ^ (-1075 : ℤ)) : nearest v = 0 := by
  have hhalf : (2 : ℚ) ^ (-1075 : ℤ) = 1 / 2 * 2 ^ (-1074 : ℤ) := by
    rw [show (-1075 : ℤ) = -1 + -1074 from rfl, two_zpow_add]
    norm_num
  have hpos := two_zpow_pos (-1074)
  have hexp : ulpExponent v = -1074 :=
    le_antisymm (ulpExponent_le hv le_rfl (by linarith)) (le_ulpExponent v)
  have hround : roundHalfEven (v / 2 ^ (-1074 : ℤ)) = 0 := by
    refine roundHalfEven_eq_of_abs_lt (div_ulp_nonneg hv.le _) ?_
    rw [Nat.cast_zero, sub_zero, abs_of_nonneg (div_ulp_nonneg hv.le _), div_lt_iff₀ hpos]
    linarith
  rw [nearest, hexp, hround, Nat.cast_zero, zero_mul]

/-- What is not less than the least double is not rounded to zero. -/
theorem nearest_pos {v : ℚ} (h : 2 ^ (-1074 : ℤ) ≤ v) : 0 < nearest v := by
  have hv : 0 < v := (two_zpow_pos _).trans_le h
  have hstep : 1 ≤ roundHalfEven (v / 2 ^ ulpExponent v) := by
    refine le_roundHalfEven ?_
    rw [Nat.cast_one, le_div_iff₀ (two_zpow_pos _), one_mul]
    rcases (le_ulpExponent v).eq_or_lt with heq | hlt
    · rwa [← heq]
    · have hle := le_of_le_ulpExponent hv hlt le_rfl
      have hpos := two_zpow_pos (ulpExponent v)
      linarith
  exact mul_pos (Nat.cast_pos.2 hstep) (two_zpow_pos _)

end DiceFormula
