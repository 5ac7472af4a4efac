/-
# The shortest text of a double

The search for the shortest text tries one grid of powers of ten after another, and on each the
two points next to the value.  A point that it takes lies between the ends of the numbers that
round to the double (`Shortest.ReadsAs`), so it is read as the double (`Shortest.nearest_ofParts`).
It takes one: the value has a decimal magnitude (`Shortest.magnitude_spec`), and on the grid of
seventeen digits one of the two points lies between the ends, since these are further from the
value than half a step of that grid.

A whole value is a point of the grid of the whole numbers, so no finer grid is tried
(`Shortest.power_ofParts_nonneg`), and its text has no point in it (`Scalar.exists_text_eq`).
-/

import DiceFormula.Proofs.Number.Arithmetic

namespace DiceFormula
namespace Binary64
namespace Shortest

/-! ### Grids -/

theorem tenfold_pos (n : ℕ) (p : ℤ) : 0 < (tenfold n p).2 := by
  cases p with
  | ofNat k => exact Nat.one_pos
  | negSucc k => exact Nat.pow_pos (by norm_num)

theorem tenfold_eq (n : ℕ) (p : ℤ) : ((tenfold n p).1 : ℚ) = n * 10 ^ p * (tenfold n p).2 := by
  cases p with
  | ofNat k =>
    show ((n * 10 ^ k : ℕ) : ℚ) = n * 10 ^ (k : ℤ) * (1 : ℕ)
    rw [zpow_natCast]
    push_cast
    ring
  | negSucc k =>
    show (n : ℚ) = n * 10 ^ (Int.negSucc k) * (10 ^ (k + 1) : ℕ)
    rw [zpow_negSucc, Nat.cast_pow, Nat.cast_ofNat, mul_assoc, inv_mul_cancel₀ (by positivity),
      mul_one]

/-- Whether the point `k` of a grid lies between the ends. -/
def isInside (low high den : ℕ) (closed : Bool) (p : ℤ) (k : ℕ) : Bool :=
  let point := k * (tenfold 1 p).1 * den
  if closed then low * (tenfold 1 p).2 ≤ point ∧ point ≤ high * (tenfold 1 p).2
  else low * (tenfold 1 p).2 < point ∧ point < high * (tenfold 1 p).2

/-- The point of a grid that is next to the value and not above it. -/
def below (value den : ℕ) (p : ℤ) : ℕ := value * (tenfold 1 p).2 / (den * (tenfold 1 p).1)

/-- A number between two ends, which may belong to it. -/
def Inside (low high : ℚ) (closed : Bool) (x : ℚ) : Prop :=
  if closed then low ≤ x ∧ x ≤ high else low < x ∧ x < high

section

variable {low value high den : ℕ} {closed : Bool} {p : ℤ}

theorem exists_onGrid_eq (low value high den : ℕ) (closed : Bool) (p : ℤ) :
    ∃ nearer : Bool, onGrid low value high den closed p =
      if isInside low high den closed p (below value den p) &&
        (!isInside low high den closed p (below value den p + 1) || nearer) then
        some ⟨below value den p, p⟩
      else if isInside low high den closed p (below value den p + 1) then
        some ⟨below value den p + 1, p⟩
      else none :=
  ⟨_, rfl⟩

theorem isInside_iff (hden : 0 < den) (k : ℕ) : isInside low high den closed p k = true ↔
    Inside (low / den) (high / den) closed (k * 10 ^ p) := by
  have hden' : (0 : ℚ) < den := Nat.cast_pos.2 hden
  have hper : (0 : ℚ) < (tenfold 1 p).2 := Nat.cast_pos.2 (tenfold_pos 1 p)
  have hpoint : ((k * (tenfold 1 p).1 * den : ℕ) : ℚ) = k * 10 ^ p * den * (tenfold 1 p).2 := by
    push_cast
    rw [tenfold_eq 1 p]
    push_cast
    ring
  have hle (n : ℕ) :
      n * (tenfold 1 p).2 ≤ k * (tenfold 1 p).1 * den ↔ (n / den : ℚ) ≤ k * 10 ^ p := by
    rw [div_le_iff₀ hden', ← Nat.cast_le (α := ℚ), hpoint, Nat.cast_mul, mul_le_mul_iff_left₀ hper]
  have hlt (n : ℕ) :
      n * (tenfold 1 p).2 < k * (tenfold 1 p).1 * den ↔ (n / den : ℚ) < k * 10 ^ p := by
    rw [div_lt_iff₀ hden', ← Nat.cast_lt (α := ℚ), hpoint, Nat.cast_mul, mul_lt_mul_iff_left₀ hper]
  have hge (n : ℕ) :
      k * (tenfold 1 p).1 * den ≤ n * (tenfold 1 p).2 ↔ (k * 10 ^ p : ℚ) ≤ n / den := by
    rw [← not_lt, hlt, not_lt]
  have hgt (n : ℕ) :
      k * (tenfold 1 p).1 * den < n * (tenfold 1 p).2 ↔ (k * 10 ^ p : ℚ) < n / den := by
    rw [← not_le, hle, not_le]
  rw [isInside, Inside]
  split_ifs
  · rw [decide_eq_true_iff, hle, hge]
  · rw [decide_eq_true_iff, hlt, hgt]

/-- **What is found on a grid** lies between the ends. -/
theorem onGrid_eq_some (hden : 0 < den) {x : Shortest}
    (h : onGrid low value high den closed p = some x) :
    x.power = p ∧ Inside (low / den) (high / den) closed (x.digits * 10 ^ p) := by
  obtain ⟨nearer, heq⟩ := exists_onGrid_eq low value high den closed p
  rw [heq] at h
  split_ifs at h with h₁ h₂
  · obtain rfl := Option.some.inj h
    exact ⟨rfl, (isInside_iff hden _).1 (Bool.and_eq_true_iff.1 h₁).1⟩
  · obtain rfl := Option.some.inj h
    exact ⟨rfl, (isInside_iff hden _).1 h₂⟩

/-- **Something is found** if one of the two points next to the value lies between the ends. -/
theorem onGrid_ne_none (hden : 0 < den) {k : ℕ}
    (hk : k = below value den p ∨ k = below value den p + 1)
    (h : Inside (low / den) (high / den) closed (k * 10 ^ p)) :
    onGrid low value high den closed p ≠ none := by
  obtain ⟨nearer, heq⟩ := exists_onGrid_eq low value high den closed p
  rw [← isInside_iff hden] at h
  rw [heq]
  split_ifs with h₁ h₂
  · exact Option.some_ne_none _
  · exact Option.some_ne_none _
  · rcases hk with rfl | rfl
    · simp only [h, h₂, Bool.true_and, Bool.not_false, Bool.true_or] at h₁
      exact absurd trivial h₁
    · exact absurd h h₂

theorem below_eq : below value den p = ⌊(value / den / 10 ^ p : ℚ)⌋₊ := by
  have hper : (0 : ℚ) < (tenfold 1 p).2 := Nat.cast_pos.2 (tenfold_pos 1 p)
  have hquot : (value / den / 10 ^ p : ℚ) =
      ((value * (tenfold 1 p).2 : ℕ) : ℚ) / (den * (tenfold 1 p).1 : ℕ) := by
    push_cast
    rw [tenfold_eq 1 p, Nat.cast_one, one_mul, div_div, ← mul_assoc, mul_div_mul_right _ _ hper.ne']
  rw [hquot, Nat.floor_div_eq_div]
  rfl

/-- **One of the two points next to the value is inside** if the ends are more than half a step
of the grid away from the value. -/
theorem exists_inside (hden : 0 < den) (closed : Bool) {w : ℚ} (hw : 10 ^ p / 2 < w)
    (hlow : (low / den : ℚ) + w ≤ value / den) (hhigh : (value / den : ℚ) + w ≤ high / den) :
    ∃ k, (k = below value den p ∨ k = below value den p + 1) ∧
      Inside (low / den) (high / den) closed (k * 10 ^ p) := by
  have hstep : (0 : ℚ) < 10 ^ p := zpow_pos (by norm_num) p
  have hvalue : (0 : ℚ) ≤ value / den / 10 ^ p := by positivity
  have hfloor := Nat.floor_le hvalue
  have hfloor' := Nat.lt_floor_add_one (value / den / 10 ^ p : ℚ)
  rw [← below_eq] at hfloor hfloor'
  rw [le_div_iff₀ hstep] at hfloor
  rw [div_lt_iff₀ hstep] at hfloor'
  have hstrict : ∀ k : ℕ, (value / den : ℚ) - w < k * 10 ^ p → (k * 10 ^ p : ℚ) < value / den + w →
      Inside (low / den) (high / den) closed (k * 10 ^ p) := by
    intro k h₁ h₂
    rw [Inside]
    split_ifs
    · exact ⟨by linarith, by linarith⟩
    · exact ⟨by linarith, by linarith⟩
  by_cases hnear : (value / den : ℚ) - below value den p * 10 ^ p ≤ 10 ^ p / 2
  · exact ⟨_, .inl rfl, hstrict _ (by linarith) (by linarith)⟩
  · refine ⟨_, .inr rfl, hstrict _ ?_ ?_⟩ <;> push_cast <;> linarith

end

/-! ### Magnitude -/

/-- Powers of two and of ten are compared by one power of each. -/
theorem two_zpow_le_of_pow {a t : ℤ} {m n : ℕ} (hm : m ≠ 0)
    (hpow : ((2 : ℚ) ^ m) ^ a ≤ (10 ^ n) ^ a) (h : n * a ≤ m * t) : (2 : ℚ) ^ a ≤ 10 ^ t := by
  refine le_of_pow_le_pow_left₀ hm (by positivity) ?_
  calc ((2 : ℚ) ^ a) ^ m = (2 ^ m) ^ a := by rw [← zpow_natCast, ← zpow_natCast, zpow_comm]
    _ ≤ (10 ^ n) ^ a := hpow
    _ = 10 ^ (n * a) := by rw [zpow_mul, zpow_natCast]
    _ ≤ 10 ^ (m * t) := zpow_le_zpow_right₀ (by norm_num) h
    _ = (10 ^ t) ^ m := by rw [mul_comm, zpow_mul, zpow_natCast]

/-- A power of two is bounded by one of ten, since `2 ^ 93 < 10 ^ 28` and `10 ^ 59 < 2 ^ 196`. -/
theorem two_zpow_le_ten_zpow {a t : ℤ} (h : 28 * a ≤ 93 * t) (h' : 59 * a ≤ 196 * t) :
    (2 : ℚ) ^ a ≤ 10 ^ t := by
  rcases le_or_gt 0 a with ha | ha
  · exact two_zpow_le_of_pow (by norm_num : 93 ≠ 0)
      (zpow_le_zpow_left₀ ha (by norm_num) (by norm_num)) h
  · obtain ⟨b, rfl⟩ : ∃ b : ℕ, a = -b := ⟨(-a).toNat, by omega⟩
    refine two_zpow_le_of_pow (by norm_num : 196 ≠ 0) (n := 59) ?_ h'
    rw [zpow_neg, zpow_neg, zpow_natCast, zpow_natCast]
    exact inv_anti₀ (by positivity) (pow_le_pow_left₀ (by norm_num) (by norm_num) b)

/-- And it bounds one. -/
theorem ten_zpow_le_two_zpow {a t : ℤ} (h : 93 * t ≤ 28 * a) (h' : 196 * t ≤ 59 * a) :
    (10 : ℚ) ^ t ≤ 2 ^ a := by
  have hle := two_zpow_le_ten_zpow (a := -a) (t := -t) (by omega) (by omega)
  rwa [zpow_neg, zpow_neg, inv_le_inv₀ (by positivity) (by positivity)] at hle

/-- The estimate of a decimal logarithm is not far off, for the exponents of doubles. -/
theorem estimate_le {log : ℤ} (hle : -1074 ≤ log) (hlt : log < 1024) :
    (10 : ℚ) ^ (log * 30103 / 100000 - 1) ≤ 2 ^ log ∧
      (2 : ℚ) ^ (log + 1) ≤ 10 ^ (log * 30103 / 100000 + 3) :=
  ⟨ten_zpow_le_two_zpow (by omega) (by omega), two_zpow_le_ten_zpow (by omega) (by omega)⟩

/-- Whether a value has at most so many digits before the point. -/
def fits (value den : ℕ) (t : ℤ) : Bool := value * (tenfold 1 t).2 < (tenfold 1 t).1 * den

theorem fits_iff {value den : ℕ} (hden : 0 < den) (t : ℤ) :
    fits value den t = true ↔ (value / den : ℚ) < 10 ^ t := by
  have hper : (0 : ℚ) < (tenfold 1 t).2 := Nat.cast_pos.2 (tenfold_pos 1 t)
  rw [fits, decide_eq_true_iff, ← Nat.cast_lt (α := ℚ), Nat.cast_mul, Nat.cast_mul, tenfold_eq,
    Nat.cast_one, one_mul, mul_right_comm, mul_lt_mul_iff_left₀ hper,
    div_lt_iff₀ (Nat.cast_pos.2 hden)]

/-- **The magnitude** is the number of digits before the point. -/
theorem magnitude_spec {value den : ℕ} {log : ℤ} (hden : 0 < den) (hle : -1074 ≤ log)
    (hlt : log < 1024) (hlow : (2 : ℚ) ^ log ≤ value / den)
    (hhigh : (value / den : ℚ) < 2 ^ (log + 1)) :
    (10 : ℚ) ^ (magnitude value den log - 1) ≤ value / den ∧
      (value / den : ℚ) < 10 ^ magnitude value den log := by
  have hmagnitude : magnitude value den log =
      ([log * 30103 / 100000, log * 30103 / 100000 + 1, log * 30103 / 100000 + 2].find?
        (fits value den)).getD (log * 30103 / 100000 + 3) := rfl
  obtain ⟨hleast, hmost⟩ := estimate_le hle hlt
  rw [hmagnitude]
  generalize log * 30103 / 100000 = guess at hleast hmost ⊢
  have hmiss : ∀ t, fits value den t = false → (10 : ℚ) ^ t ≤ value / den := by
    intro t ht
    rw [← not_lt, ← fits_iff hden, ht]
    exact Bool.false_ne_true
  cases h₀ : fits value den guess with
  | true =>
    rw [List.find?_cons_of_pos h₀]
    exact ⟨hleast.trans hlow, (fits_iff hden _).1 h₀⟩
  | false =>
    rw [List.find?_cons_of_neg (by rw [h₀]; exact Bool.false_ne_true)]
    cases h₁ : fits value den (guess + 1) with
    | true =>
      rw [List.find?_cons_of_pos h₁, Option.getD_some, add_sub_cancel_right]
      exact ⟨hmiss _ h₀, (fits_iff hden _).1 h₁⟩
    | false =>
      rw [List.find?_cons_of_neg (by rw [h₁]; exact Bool.false_ne_true)]
      cases h₂ : fits value den (guess + 2) with
      | true =>
        rw [List.find?_cons_of_pos h₂, Option.getD_some, add_sub_assoc]
        exact ⟨hmiss _ h₁, (fits_iff hden _).1 h₂⟩
      | false =>
        rw [List.find?_cons_of_neg (by rw [h₂]; exact Bool.false_ne_true), List.find?_nil,
          Option.getD_none, add_sub_assoc]
        exact ⟨hmiss _ h₂, hhigh.trans_le hmost⟩

/-! ### The numbers that are read as a double -/

/-- The lower end of the numbers that are read as `s · 2 ^ e`, in quarters of a step. -/
def lowQuarters (s : ℕ) (e : ℤ) : ℕ :=
  if s = leadingBit ∧ -1074 < e then 4 * s - 1 else 4 * s - 2

/-- A number that lies between the ends of those that are read as `s · 2 ^ e`. -/
def ReadsAs (s : ℕ) (e : ℤ) (x : ℚ) : Prop :=
  Inside (lowQuarters s e * 2 ^ (e - 2)) ((4 * s + 2 : ℕ) * 2 ^ (e - 2)) (s % 2 == 0) x

section

variable {s : ℕ} {e : ℤ} {x : ℚ}

theorem two_zpow_eq_quarters (e : ℤ) : (2 : ℚ) ^ e = 4 * 2 ^ (e - 2) := by
  conv_lhs => rw [show e = 2 + (e - 2) by omega, two_zpow_add]
  norm_num

/-- The ends belong to the numbers that are read only if the significand is even. -/
theorem ReadsAs.le (h : ReadsAs s e x) : (lowQuarters s e : ℚ) * 2 ^ (e - 2) ≤ x ∧
    x ≤ (4 * s + 2) * 2 ^ (e - 2) ∧
    (Even s ∨ ((lowQuarters s e : ℚ) * 2 ^ (e - 2) < x ∧ x < (4 * s + 2) * 2 ^ (e - 2))) := by
  rw [ReadsAs, Inside] at h
  push_cast at h
  split_ifs at h with heven
  · exact ⟨h.1, h.2, .inl (Nat.even_iff.2 (beq_iff_eq.1 heven))⟩
  · exact ⟨h.1.le, h.2.le, .inr h⟩

theorem le_lowQuarters (hs : 0 < s) (e : ℤ) : (4 * s - 2 : ℚ) ≤ lowQuarters s e := by
  have h : 4 * s ≤ lowQuarters s e + 2 := by
    rw [lowQuarters]
    split_ifs <;> omega
  have : (4 * s : ℚ) ≤ lowQuarters s e + 2 := by exact_mod_cast h
  linarith

theorem ReadsAs.pos (hs : 0 < s) (h : ReadsAs s e x) : 0 < x := by
  have hone : (1 : ℚ) ≤ s := by exact_mod_cast hs
  have hlow := le_lowQuarters hs e
  exact (mul_pos (by linarith) (two_zpow_pos _)).trans_le h.le.1

/-- Below a power of two the steps are half as large. -/
theorem nearest_eq_below_power (he : -1074 < e) (hlow : (2 ^ 54 - 1) * 2 ^ (e - 2) ≤ x)
    (hlt : x < 2 ^ 52 * 2 ^ e) : nearest x = 2 ^ 52 * 2 ^ e := by
  have hq := two_zpow_pos (e - 2)
  have hhalf : (2 : ℚ) ^ (e - 1) = 2 * 2 ^ (e - 2) := by
    rw [show e - 1 = 1 + (e - 2) by omega, two_zpow_add, zpow_one]
  rw [two_zpow_eq_quarters e] at hlt
  have hpos : 0 < x := (mul_pos (by norm_num) hq).trans_le hlow
  have hexp : ulpExponent x = e - 1 := by
    refine ulpExponent_eq hpos ?_ (.inl ⟨by omega, ?_⟩) <;> rw [hhalf] <;> linarith
  have hround : roundHalfEven (x / 2 ^ (e - 1)) = 2 ^ 53 := by
    refine (roundHalfEven_eq_iff (by positivity)).2 ⟨?_, fun _ => ⟨2 ^ 52, by norm_num⟩⟩
    have h₁ : (2 : ℚ) ^ 53 - 1 / 2 ≤ x / 2 ^ (e - 1) := by
      rw [le_div_iff₀ (two_zpow_pos _), hhalf]
      linarith
    have h₂ : x / 2 ^ (e - 1) ≤ 2 ^ 53 := by
      rw [div_le_iff₀ (two_zpow_pos _), hhalf]
      linarith
    rw [abs_le]
    push_cast
    exact ⟨by linarith, by linarith⟩
  rw [nearest, hexp, hround, two_zpow_eq_quarters e, hhalf]
  norm_num
  ring

/-- Elsewhere they are those of the double. -/
theorem nearest_eq_on_grid (hcanonical : IsCanonical s e) (hpos : 0 < x)
    (hgrid : 2 ^ 52 * 2 ^ e ≤ x ∨ e = -1074) (hlow : (4 * s - 2) * 2 ^ (e - 2) ≤ x)
    (hhigh : x ≤ (4 * s + 2) * 2 ^ (e - 2))
    (hstrict : Even s ∨ (4 * s - 2) * 2 ^ (e - 2) < x ∧ x < (4 * s + 2) * 2 ^ (e - 2)) :
    nearest x = s * 2 ^ e := by
  have hq := two_zpow_pos (e - 2)
  have hquarters := two_zpow_eq_quarters e
  have hlt : (s : ℚ) + 1 ≤ 2 ^ 53 := by exact_mod_cast hcanonical.lt
  have hexp : ulpExponent x = e := by
    refine ulpExponent_eq hpos ?_ (hgrid.imp_left fun h => ⟨hcanonical.le_exponent, h⟩)
    rw [hquarters]
    nlinarith
  have hsteps : x / 2 ^ e * (4 * 2 ^ (e - 2)) = x := by
    rw [← hquarters, div_mul_cancel₀ _ (two_zpow_pos e).ne']
  have hround : roundHalfEven (x / 2 ^ e) = s := by
    refine (roundHalfEven_eq_iff (by positivity)).2 ⟨?_, fun hhalf => ?_⟩
    · rw [abs_le]
      constructor
      · by_contra h
        nlinarith [not_le.1 h]
      · by_contra h
        nlinarith [not_le.1 h]
    · refine hstrict.resolve_right ?_
      rintro ⟨h₁, h₂⟩
      rcases (abs_eq (by norm_num)).1 hhalf with h | h
      · nlinarith
      · nlinarith
  rw [nearest, hexp, hround]

/-- **What lies between the ends is read as the double.** -/
theorem ReadsAs.nearest_eq (hcanonical : IsCanonical s e) (hs : 0 < s) (h : ReadsAs s e x) :
    nearest x = s * 2 ^ e := by
  have hpos := h.pos hs
  obtain ⟨hlow, hhigh, hstrict⟩ := h.le
  have hq := two_zpow_pos (e - 2)
  have hle := mul_le_mul_of_nonneg_right (le_lowQuarters hs e) hq.le
  have hlead : leadingBit = 2 ^ 52 := rfl
  by_cases hfine : (s = leadingBit ∧ -1074 < e) ∧ x < s * 2 ^ e
  · obtain ⟨⟨rfl, he⟩, hlt⟩ := hfine
    have hquarters : (lowQuarters leadingBit e : ℚ) = 2 ^ 54 - 1 := by
      rw [lowQuarters, if_pos ⟨rfl, he⟩, hlead]
      norm_num
    rw [hquarters] at hlow
    rw [hlead, Nat.cast_pow, Nat.cast_two] at hlt ⊢
    exact nearest_eq_below_power he hlow hlt
  · refine nearest_eq_on_grid hcanonical hpos ?_ (hle.trans hlow) hhigh
      (hstrict.imp_right (And.imp_left hle.trans_lt))
    refine or_iff_not_imp_right.2 fun he => ?_
    have hnormal := hcanonical.normal.resolve_right he
    rcases eq_or_lt_of_le hnormal with heq | hlt
    · have hexp := lt_of_le_of_ne hcanonical.le_exponent (Ne.symm he)
      have hge : (s * 2 ^ e : ℚ) ≤ x := not_lt.1 fun hlt => hfine ⟨⟨heq.symm, hexp⟩, hlt⟩
      rwa [← heq, Nat.cast_pow, Nat.cast_two] at hge
    · have hlt : (2 ^ 52 : ℚ) + 1 ≤ s := by exact_mod_cast hlt
      rw [two_zpow_eq_quarters e]
      nlinarith

/-! ### The search -/

/-- A quarter of a step as a fraction. -/
def quarter (e : ℤ) : ℕ × ℕ :=
  match e - 2 with
  | .ofNat k => (1 <<< k, 1)
  | .negSucc k => (1, 1 <<< (k + 1))

theorem quarter_pos (e : ℤ) : 0 < (quarter e).2 := by
  rw [quarter]
  split
  · exact Nat.one_pos
  · rw [Nat.shiftLeft_eq, one_mul]
    exact Nat.pow_pos (by norm_num)

theorem quarter_eq (e : ℤ) : ((quarter e).1 / (quarter e).2 : ℚ) = 2 ^ (e - 2) := by
  rw [quarter]
  cases e - 2 with
  | ofNat k => simp [Nat.shiftLeft_eq]
  | negSucc k => simp [Nat.shiftLeft_eq, zpow_negSucc]

theorem mul_quarter_eq (n : ℕ) (e : ℤ) :
    ((n * (quarter e).1 : ℕ) : ℚ) / (quarter e).2 = n * 2 ^ (e - 2) := by
  rw [Nat.cast_mul, mul_div_assoc, quarter_eq]

theorem value_eq (s : ℕ) (e : ℤ) :
    ((4 * s * (quarter e).1 : ℕ) : ℚ) / (quarter e).2 = s * 2 ^ e := by
  rw [mul_quarter_eq, two_zpow_eq_quarters e]
  push_cast
  ring

/-- The number of digits of a double before its point. -/
def width (s : ℕ) (e : ℤ) : ℤ := magnitude (4 * s * (quarter e).1) (quarter e).2 (s.log2 + e)

theorem width_spec (hcanonical : IsCanonical s e) (he : e ≤ 971) (hs : 0 < s) :
    (10 : ℚ) ^ (width s e - 1) ≤ s * 2 ^ e ∧ (s * 2 ^ e : ℚ) < 10 ^ width s e := by
  have hlog : s.log2 < 53 := (Nat.log2_lt hs.ne').2 hcanonical.lt
  have hlow : (2 ^ s.log2 : ℚ) ≤ s := by exact_mod_cast Nat.log2_self_le hs.ne'
  have hhigh : (s : ℚ) < 2 ^ (s.log2 + 1) := by exact_mod_cast Nat.lt_log2_self
  have hpos := two_zpow_pos e
  have hexp := hcanonical.le_exponent
  rw [← value_eq]
  refine magnitude_spec (quarter_pos e) (by omega) (by omega) ?_ ?_
  · rw [value_eq, two_zpow_add, zpow_natCast]
    exact mul_le_mul_of_nonneg_right hlow hpos.le
  · rw [value_eq, add_right_comm, two_zpow_add]
    exact mul_lt_mul_of_pos_right (by exact_mod_cast hhigh) hpos

/-- The search on the grid of the `n`-th digit. -/
def search (s : ℕ) (e : ℤ) (n : ℕ) : Option Shortest :=
  onGrid (lowQuarters s e * (quarter e).1) (4 * s * (quarter e).1) ((4 * s + 2) * (quarter e).1)
    (quarter e).2 (s % 2 == 0) (width s e - (n + 1 : ℕ))

theorem ofParts_eq (s : ℕ) (e : ℤ) :
    ofParts s e = strip 17 (((List.range 17).findSome? (search s e)).getD ⟨0, 0⟩) := by
  rfl

/-- **What is found is read as the double.** -/
theorem search_eq_some {n : ℕ} {x : Shortest} (h : search s e n = some x) :
    x.power = width s e - (n + 1 : ℕ) ∧ ReadsAs s e (x.digits * 10 ^ x.power) := by
  obtain ⟨hpower, hinside⟩ := onGrid_eq_some (quarter_pos e) h
  rw [mul_quarter_eq, mul_quarter_eq] at hinside
  exact ⟨hpower, hpower ▸ hinside⟩

/-- The ends are at least so far away from the value. -/
theorem exists_halfWidth (hcanonical : IsCanonical s e) (hs : 0 < s) :
    ∃ w : ℚ, (s * 2 ^ e : ℚ) ≤ 2 ^ 54 * w ∧ 0 < w ∧
      (lowQuarters s e : ℚ) * 2 ^ (e - 2) + w ≤ s * 2 ^ e ∧
      (s * 2 ^ e : ℚ) + w ≤ (4 * s + 2 : ℕ) * 2 ^ (e - 2) := by
  have hq := two_zpow_pos (e - 2)
  have hlt : (s : ℚ) ≤ 2 ^ 53 := by exact_mod_cast hcanonical.lt.le
  have hlead : leadingBit = 2 ^ 52 := rfl
  rw [two_zpow_eq_quarters e, lowQuarters]
  push_cast
  split_ifs with h
  · have hsub : ((4 * s - 1 : ℕ) : ℚ) = 4 * s - 1 := by
      rw [Nat.cast_sub (by omega)]
      norm_num
    rw [hsub, h.1, hlead]
    exact ⟨2 ^ (e - 2), by push_cast; linarith, hq, by linarith, by linarith⟩
  · have hsub : ((4 * s - 2 : ℕ) : ℚ) = 4 * s - 2 := by
      rw [Nat.cast_sub (by omega)]
      norm_num
    rw [hsub]
    exact ⟨2 * 2 ^ (e - 2), by nlinarith, by linarith, by linarith, by linarith⟩

/-- **Something is found with seventeen digits.** -/
theorem search_ne_none (hcanonical : IsCanonical s e) (he : e ≤ 971) (hs : 0 < s) :
    search s e 16 ≠ none := by
  obtain ⟨w, hwide, -, hlow, hhigh⟩ := exists_halfWidth hcanonical hs
  have hwidth := (width_spec hcanonical he hs).1
  rw [show width s e - 1 = 16 + (width s e - (16 + 1 : ℕ)) by push_cast; ring,
    zpow_add₀ (by norm_num)] at hwidth
  have hw : (10 : ℚ) ^ (width s e - (16 + 1 : ℕ)) / 2 < w := by
    have hstep : (0 : ℚ) < 10 ^ (width s e - (16 + 1 : ℕ)) := zpow_pos (by norm_num) _
    norm_num at hwidth hwide hstep ⊢
    linarith
  rw [← value_eq s e, ← mul_quarter_eq _ e] at hlow hhigh
  obtain ⟨k, hk, hinside⟩ := exists_inside (quarter_pos e) (s % 2 == 0) hw hlow hhigh
  exact onGrid_ne_none (quarter_pos e) hk hinside

/-- **Something is found on a grid on which the value lies.** -/
theorem search_ne_none_of_eq (hcanonical : IsCanonical s e) (hs : 0 < s) {n k : ℕ}
    (h : (s * 2 ^ e : ℚ) = k * 10 ^ (width s e - (n + 1 : ℕ))) : search s e n ≠ none := by
  obtain ⟨w, -, hw, hlow, hhigh⟩ := exists_halfWidth hcanonical hs
  have hstep : (10 : ℚ) ^ (width s e - (n + 1 : ℕ)) ≠ 0 := zpow_ne_zero _ (by norm_num)
  have hk : k = below (4 * s * (quarter e).1) (quarter e).2 (width s e - (n + 1 : ℕ)) := by
    rw [below_eq, value_eq, h, mul_div_cancel_right₀ _ hstep, Nat.floor_natCast]
  refine onGrid_ne_none (quarter_pos e) (.inl hk) ?_
  rw [mul_quarter_eq, mul_quarter_eq, ← h, Inside]
  split_ifs
  · exact ⟨by linarith, by linarith⟩
  · exact ⟨by linarith, by linarith⟩

/-- **What is found first** is the shortest decimal. -/
theorem exists_first (hcanonical : IsCanonical s e) (he : e ≤ 971) (hs : 0 < s) :
    ∃ n x, ofParts s e = strip 17 x ∧ search s e n = some x ∧ ∀ m < n, search s e m = none := by
  cases hfound : (List.range 17).findSome? (search s e) with
  | none =>
    rw [List.findSome?_eq_none_iff] at hfound
    exact absurd (hfound 16 (by decide)) (search_ne_none hcanonical he hs)
  | some x =>
    obtain ⟨front, n, back, hrange, hx, hfirst⟩ := List.findSome?_eq_some_iff.1 hfound
    refine ⟨n, x, by rw [ofParts_eq, hfound, Option.getD_some], hx, fun m hm => hfirst m ?_⟩
    have hsorted := @List.pairwise_lt_range 17
    have hmem : m ∈ List.range 17 := by
      have hn : n ∈ List.range 17 := hrange ▸ by simp
      rw [List.mem_range] at hn ⊢
      omega
    rw [hrange, List.pairwise_append, List.pairwise_cons] at hsorted
    rw [hrange, List.mem_append, List.mem_cons] at hmem
    rcases hmem with h | rfl | h
    · exact h
    · exact absurd hm (lt_irrefl _)
    · exact absurd hm (lt_asymm (hsorted.2.1.1 m h))

/-- Dropped zeros count in the power. -/
theorem strip_spec (fuel : ℕ) (x : Shortest) :
    ((strip fuel x).digits * 10 ^ (strip fuel x).power : ℚ) = x.digits * 10 ^ x.power ∧
      x.power ≤ (strip fuel x).power := by
  induction fuel generalizing x with
  | zero => exact ⟨rfl, le_rfl⟩
  | succ fuel ih =>
    rw [strip]
    split_ifs with h
    · obtain ⟨hvalue, hpower⟩ := ih ⟨x.digits / 10, x.power + 1⟩
      have hdigits : (x.digits : ℚ) = (x.digits / 10 : ℕ) * 10 := by
        exact_mod_cast (Nat.div_mul_cancel (Nat.dvd_of_mod_eq_zero h.2)).symm
      refine ⟨?_, (Int.le_add_one le_rfl).trans hpower⟩
      rw [hvalue, hdigits, zpow_add_one₀ (by norm_num)]
      ring
    · exact ⟨rfl, le_rfl⟩

/-- **The shortest decimal** is read as the double. -/
theorem nearest_ofParts (hcanonical : IsCanonical s e) (he : e ≤ 971) (hs : 0 < s) :
    nearest ((ofParts s e).digits * 10 ^ (ofParts s e).power) = s * 2 ^ e := by
  obtain ⟨n, x, hx, hfound, -⟩ := exists_first hcanonical he hs
  rw [hx, (strip_spec 17 x).1]
  exact (search_eq_some hfound).2.nearest_eq hcanonical hs

/-- **That of a whole number** is one, since the number lies on the grid of the whole numbers. -/
theorem power_ofParts_nonneg (hcanonical : IsCanonical s e) (he : e ≤ 971) (hs : 0 < s) {k : ℕ}
    (hk : (s * 2 ^ e : ℚ) = k) : 0 ≤ (ofParts s e).power := by
  obtain ⟨n, x, hx, hfound, hfirst⟩ := exists_first hcanonical he hs
  rw [hx]
  refine le_trans ?_ (strip_spec 17 x).2
  have hpower := (search_eq_some hfound).1
  have hwidth : 0 < width s e := by
    have hone : (1 : ℚ) ≤ k := by
      have hpos : (0 : ℚ) < k := hk ▸ mul_pos (Nat.cast_pos.2 hs) (two_zpow_pos e)
      exact_mod_cast hpos
    have hlt : (10 : ℚ) ^ (0 : ℤ) < 10 ^ width s e := by
      rw [zpow_zero]
      exact hone.trans_lt (hk ▸ (width_spec hcanonical he hs).2)
    exact (zpow_lt_zpow_iff_right₀ (by norm_num)).1 hlt
  by_contra hneg
  refine search_ne_none_of_eq hcanonical hs (n := (width s e - 1).toNat) (k := k) ?_
    (hfirst _ (by omega))
  rw [show width s e - ((width s e - 1).toNat + 1 : ℕ) = 0 by omega, zpow_zero, mul_one, hk]

end

/-! ### The text -/

theorem ofNat_append_replicate {n : ℕ} (hn : 0 < n) (k : ℕ) :
    Digits.ofNat n ++ List.replicate k '0' = Digits.ofNat (n * 10 ^ k) := by
  induction k with
  | zero => rw [List.replicate_zero, List.append_nil, pow_zero, mul_one]
  | succ k ih =>
    rw [List.replicate_succ', ← List.append_assoc, ih]
    have hpos : 0 < n * 10 ^ k := Nat.mul_pos hn (Nat.pow_pos (by norm_num))
    have hzero := Nat.toDigits_append_toDigits (b := 10) (by norm_num) hpos (by norm_num : 0 < 10)
    rw [pow_succ, ← mul_assoc, mul_comm _ 10, Digits.ofNat, Digits.ofNat, ← Nat.add_zero (10 * _),
      ← hzero]
    rfl

/-- The text of a whole number has no point. -/
theorem positional_eq {x : Shortest} (hx : 0 ≤ x.power) (hdigits : 0 < x.digits) :
    ∃ n : ℕ, x.positional = Digits.ofNat n ∧ (n : ℚ) = x.digits * 10 ^ x.power := by
  obtain ⟨k, hk⟩ := Int.eq_ofNat_of_zero_le hx
  refine ⟨x.digits * 10 ^ k, ?_, by rw [hk, zpow_natCast]; push_cast; ring⟩
  rw [positional, hk]
  exact ofNat_append_replicate hdigits k

end Shortest
end Binary64

/-- **The text of a positive whole double** is the digits of a number that is read as it. -/
theorem Scalar.exists_text_eq {x : Float} {k : ℕ} (hk : 0 < k) (hx : exact x = .finite false k) :
    ∃ n : ℕ, text x = Digits.ofNat n ∧ nearest n = k := by
  obtain ⟨s, e, hparts, hvalue⟩ := exact_eq_finite_iff.1 hx
  obtain ⟨hcanonical, he⟩ := Binary64.isCanonical_of_ofFloat hparts
  have hs : 0 < s := by
    refine Nat.pos_of_ne_zero fun hzero => ?_
    rw [hzero, Nat.cast_zero, zero_mul, Nat.cast_eq_zero] at hvalue
    exact hk.ne' hvalue
  have hnearest := Binary64.Shortest.nearest_ofParts hcanonical he hs
  have hdigits : 0 < (Binary64.Shortest.ofParts s e).digits := by
    refine Nat.pos_of_ne_zero fun hzero => ?_
    rw [hzero, Nat.cast_zero, zero_mul, nearest_zero, ← hvalue, eq_comm,
      Nat.cast_eq_zero] at hnearest
    exact hk.ne' hnearest
  obtain ⟨n, htext, hn⟩ := Binary64.Shortest.positional_eq
    (Binary64.Shortest.power_ofParts_nonneg hcanonical he hs hvalue.symm) hdigits
  refine ⟨n, ?_, by rw [hn, hnearest, hvalue]⟩
  show (Binary64.ofFloat x).text = _
  obtain ⟨m, rfl⟩ := Nat.exists_eq_add_one.2 hs
  rw [hparts, ← htext]
  rfl

end DiceFormula
