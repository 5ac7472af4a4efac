/-
# Arithmetic on doubles

What the operations on doubles give is told by values (`Scalar.exact`): products, quotients,
literals and whole numbers are the doubles nearest to the exact results, or infinities if these
are too large; the integer part and the nearest integer are exact; a difference is zero just if
the values are the same.

Two operands are taken apart (`Scalar.exists_unpack`), and the cases of the operation are those
of the parts.
-/

import DiceFormula.Proofs.Number.Rounding

namespace DiceFormula

open Float.Model Float.Model.UnpackedFloat

variable {x y : Float} {a b : Bool} {u w : ℚ}

namespace Scalar

/-- **The parts of a finite double:** a zero, or canonical parts. -/
theorem exists_unpack (h : exact x = .finite a u) : ∃ s, isMinus s = a ∧
    ((u = 0 ∧ x.toModel.unpack = .zero s) ∨
      ∃ m e hm, x.toModel.unpack = .finite s m e hm ∧ IsCanonical m e ∧ u = m * 2 ^ e) := by
  have hparts := Binary64.ofFloat_eq x
  rw [exact_eq_exact_ofUnpacked] at h
  cases hx : x.toModel.unpack with
  | notANumber => rw [hx] at h; cases h
  | infinity s => rw [hx] at h; cases h
  | zero s =>
    rw [hx, Binary64.exact_ofUnpacked_zero] at h
    cases h
    exact ⟨s, rfl, .inl ⟨rfl, rfl⟩⟩
  | finite s m e hm =>
    rw [hx] at h hparts
    rw [Binary64.exact_ofUnpacked_finite] at h
    cases h
    exact ⟨s, rfl, .inr ⟨m, e, hm, rfl, (Binary64.isCanonical_of_ofFloat hparts).1, rfl⟩⟩

theorem rounded_of_isDouble (hu : IsDouble u) (hlt : u < doubleLimit) (a : Bool) :
    Exact.rounded a u = .finite a u := by
  rw [Exact.rounded, hu.nearest_eq, if_pos hlt]

theorem rounded_zero (a : Bool) : Exact.rounded a 0 = .finite a 0 := by
  rw [Exact.rounded, nearest_zero, if_pos doubleLimit_pos]

theorem exact_zero (s : Sign) : exact (Binary64.pack (.zero s)) = .rounded (isMinus s) 0 := by
  rw [exact_pack_zero, rounded_zero]

/-! ### Products and quotients -/

section

variable (s t : Sign) {m n : ℕ} {e f : ℤ} (hm : 0 < m) (hn : 0 < n)

theorem isMinus_mul : isMinus (s * t) = (isMinus s ^^ isMinus t) := by cases s <;> cases t <;> rfl

theorem isMinus_div : isMinus (s / t) = (isMinus s ^^ isMinus t) := by cases s <;> cases t <;> rfl

theorem parts_pos (hm : 0 < m) (e : ℤ) : (0 : ℚ) < m * 2 ^ e :=
  mul_pos (Nat.cast_pos.2 hm) (two_zpow_pos e)

/-- The product of parts that need no bits in front. -/
theorem exact_mul_parts (he : e + f ≤ ulpExponent (m * 2 ^ e * (n * 2 ^ f))) :
    exact (Binary64.pack (UnpackedFloat.mul .binary64 (.finite s m e hm) (.finite t n f hn))) =
      .rounded (isMinus s ^^ isMinus t) (m * 2 ^ e * (n * 2 ^ f)) := by
  have hleaves : Leaves (m * n) (m * 2 ^ e * (n * 2 ^ f) / 2 ^ (e + f)) .exact := by
    show _ = ((m * n : ℕ) : ℚ)
    rw [div_eq_iff (two_zpow_pos _).ne', two_zpow_add]
    push_cast
    ring
  rw [← isMinus_mul]
  exact exact_pack_roundWithAccuracy (s * t) (mul_pos (parts_pos hm e) (parts_pos hn f)) hleaves he

/-- Canonical parts need no bits in front. -/
theorem add_le_ulpExponent (hm : 0 < m) (hn : 0 < n) (h : IsCanonical m e) (h' : IsCanonical n f) :
    e + f ≤ ulpExponent (m * 2 ^ e * (n * 2 ^ f)) := by
  have hproduct : (m * 2 ^ e * (n * 2 ^ f) : ℚ) = (m * n : ℕ) * 2 ^ (e + f) := by
    rw [two_zpow_add]
    push_cast
    ring
  by_cases hbig : 2 ^ 52 ≤ m * n
  · refine le_ulpExponent_of_le ?_
    rw [hproduct]
    exact mul_le_mul_of_nonneg_right (by exact_mod_cast hbig) (two_zpow_pos _).le
  · have hleast := le_ulpExponent (m * 2 ^ e * (n * 2 ^ f))
    have hm52 : ¬ 2 ^ 52 ≤ m := fun hle => hbig (hle.trans (Nat.le_mul_of_pos_right m hn))
    have hn52 : ¬ 2 ^ 52 ≤ n := fun hle => hbig (hle.trans (Nat.le_mul_of_pos_left n hm))
    have he := h.normal.resolve_left hm52
    have hf := h'.normal.resolve_left hn52
    omega

/-- The rest of a division is what is left over. -/
theorem leaves_accuracyOfFraction (m : ℕ) (hn : 0 < n) :
    Leaves (m / n) (m / n) (accuracyOfFraction (m % n) n) := by
  have hpos : (0 : ℚ) < n := Nat.cast_pos.2 hn
  have hlt : ((m % n : ℕ) : ℚ) < n := by exact_mod_cast Nat.mod_lt m hn
  have hquot := div_eq_whole_add_rest m hn
  rw [accuracyOfFraction]
  split_ifs with hzero
  · show (m / n : ℚ) = _
    rw [hquot, hzero, Nat.cast_zero, zero_div, add_zero]
  · have hrest : (0 : ℚ) < (m % n : ℕ) / n :=
      div_pos (Nat.cast_pos.2 (Nat.pos_of_ne_zero hzero)) hpos
    rw [hquot]
    cases hcompare : compare (2 * (m % n)) n with
    | lt =>
      have h := (div_lt_half_iff hn).2 (Nat.compare_eq_lt.1 hcompare)
      exact ⟨by linarith, by linarith⟩
    | eq =>
      have h := (div_eq_half_iff hn).2 (Nat.compare_eq_eq.1 hcompare)
      show _ = _
      rw [h]
    | gt =>
      have h := (half_lt_div_iff hn).2 (Nat.compare_eq_gt.1 hcompare)
      have h' : ((m % n : ℕ) : ℚ) / n < 1 := by rwa [div_lt_one hpos]
      exact ⟨by linarith, by linarith⟩

/-- The exponent of a quotient leaves it enough bits. -/
theorem le_ulpExponent_div (hm : 0 < m) (hn : 0 < n) :
    min (e - f) (Format.binary64.targetExponent (totalExponent m e - totalExponent n f)) ≤
      ulpExponent (m * 2 ^ e / (n * 2 ^ f)) := by
  refine (min_le_right _ _).trans ?_
  show max ((m.log2 : ℤ) + 1 + e - (n.log2 + 1 + f) - 53) (-1074) ≤ _
  refine max_le (le_ulpExponent_of_le ?_) (le_ulpExponent _)
  have hlow : (2 ^ m.log2 : ℚ) ≤ m := by exact_mod_cast Nat.log2_self_le hm.ne'
  have hhigh : (n : ℚ) ≤ 2 ^ (n.log2 + 1) := by exact_mod_cast Nat.lt_log2_self.le
  rw [le_div_iff₀ (parts_pos hn f)]
  calc (2 ^ 52 * 2 ^ ((m.log2 : ℤ) + 1 + e - (n.log2 + 1 + f) - 53) * (n * 2 ^ f) : ℚ)
      ≤ 2 ^ 52 * 2 ^ ((m.log2 : ℤ) + 1 + e - (n.log2 + 1 + f) - 53) *
          (2 ^ (n.log2 + 1) * 2 ^ f) := by gcongr
    _ = 2 ^ m.log2 * 2 ^ e := by
      rw [← zpow_natCast, ← zpow_natCast, ← zpow_natCast, ← two_zpow_add, ← two_zpow_add,
        ← two_zpow_add, ← two_zpow_add]
      congr 1
      push_cast
      ring
    _ ≤ m * 2 ^ e := by gcongr

/-- **The quotient of parts.** -/
theorem exact_div_parts :
    exact (Binary64.pack (UnpackedFloat.div .binary64 (.finite s m e hm) (.finite t n f hn))) =
      .rounded (isMinus s ^^ isMinus t) (m * 2 ^ e / (n * 2 ^ f)) := by
  have hle := le_ulpExponent_div (e := e) (f := f) hm hn
  have hleaves : ∀ g : ℤ, g ≤ e - f → Leaves ((m <<< (e - f - g).toNat) / n)
      (m * 2 ^ e / (n * 2 ^ f) / 2 ^ g)
      (accuracyOfFraction ((m <<< (e - f - g).toNat) % n) n) := by
    intro g hg
    have h := leaves_accuracyOfFraction (m <<< (e - f - g).toNat) hn
    have hshift : ((m <<< (e - f - g).toNat : ℕ) : ℚ) / n = m * 2 ^ e / (n * 2 ^ f) / 2 ^ g := by
      have hexp : e = (e - f - g).toNat + f + g := by omega
      have hf := (two_zpow_pos f).ne'
      have hg := (two_zpow_pos g).ne'
      rw [Nat.shiftLeft_eq, div_div, div_eq_div_iff (Nat.cast_ne_zero.2 hn.ne')
        (mul_ne_zero (mul_ne_zero (Nat.cast_ne_zero.2 hn.ne') hf) hg)]
      conv_rhs => rw [hexp, two_zpow_add, two_zpow_add, zpow_natCast]
      push_cast
      ring
    rwa [hshift] at h
  rw [← isMinus_div]
  exact exact_pack_roundWithAccuracy (s / t) (div_pos (parts_pos hm e) (parts_pos hn f))
    (hleaves _ (min_le_left _ _)) hle

end

/-- **A product is the double nearest to the exact product.** -/
theorem exact_mul (hx : exact x = .finite a u) (hy : exact y = .finite b w) :
    exact (x * y) = .rounded (a ^^ b) (u * w) := by
  have hmul : x * y =
      Binary64.pack (UnpackedFloat.mul .binary64 x.toModel.unpack y.toModel.unpack) := rfl
  obtain ⟨s, rfl, ⟨rfl, hx'⟩ | ⟨m, e, hm, hx', hcanonical, rfl⟩⟩ := exists_unpack hx
  · obtain ⟨t, rfl, ⟨rfl, hy'⟩ | ⟨n, f, hn, hy', -, rfl⟩⟩ := exists_unpack hy
    · rw [hmul, hx', hy', zero_mul, ← isMinus_mul]
      exact exact_zero (s * t)
    · rw [hmul, hx', hy', zero_mul, ← isMinus_mul]
      exact exact_zero (s * t)
  · obtain ⟨t, rfl, ⟨rfl, hy'⟩ | ⟨n, f, hn, hy', hcanonical', rfl⟩⟩ := exists_unpack hy
    · rw [hmul, hx', hy', mul_zero, ← isMinus_mul]
      exact exact_zero (s * t)
    · rw [hmul, hx', hy']
      exact exact_mul_parts s t hm hn (add_le_ulpExponent hm hn hcanonical hcanonical')

/-- **A quotient is the double nearest to the exact quotient.** -/
theorem exact_div (hx : exact x = .finite a u) (hy : exact y = .finite b w) (hw : w ≠ 0) :
    exact (x / y) = .rounded (a ^^ b) (u / w) := by
  have hdiv : x / y =
      Binary64.pack (UnpackedFloat.div .binary64 x.toModel.unpack y.toModel.unpack) := rfl
  obtain ⟨t, rfl, ⟨rfl, -⟩ | ⟨n, f, hn, hy', -, rfl⟩⟩ := exists_unpack hy
  · exact absurd rfl hw
  · obtain ⟨s, rfl, ⟨rfl, hx'⟩ | ⟨m, e, hm, hx', -, rfl⟩⟩ := exists_unpack hx
    · rw [hdiv, hx', hy', zero_div, ← isMinus_div]
      exact exact_zero (s / t)
    · rw [hdiv, hx', hy']
      exact exact_div_parts s t hm hn

/-- An infinity divided by a finite double is an infinity. -/
theorem exact_div_infinite (hx : exact x = .infinite a) (hy : exact y = .finite b w) :
    exact (x / y) = .infinite (a ^^ b) := by
  have hdiv : x / y =
      Binary64.pack (UnpackedFloat.div .binary64 x.toModel.unpack y.toModel.unpack) := rfl
  rw [exact_eq_exact_ofUnpacked] at hx
  cases hxparts : x.toModel.unpack with
  | infinity s =>
    rw [hxparts] at hx
    cases hx
    obtain ⟨t, rfl, ⟨-, hy'⟩ | ⟨n, f, hn, hy', -⟩⟩ := exists_unpack hy
    · rw [hdiv, hxparts, hy', ← isMinus_div]
      exact congrArg Binary64.exact (Binary64.ofFloat_pack_infinity (s / t))
    · rw [hdiv, hxparts, hy', ← isMinus_div]
      exact congrArg Binary64.exact (Binary64.ofFloat_pack_infinity (s / t))
  | notANumber => rw [hxparts] at hx; cases hx
  | zero s => rw [hxparts] at hx; cases hx
  | finite s m e hm => rw [hxparts] at hx; cases hx

/-! ### Signs and whole numbers -/

theorem isMinus_neg (s : Sign) : isMinus (-s) = !isMinus s := by cases s <;> rfl

theorem exact_neg (hx : exact x = .finite a u) : exact (-x) = .finite (!a) u := by
  have hneg : -x = Binary64.pack x.toModel.unpack.neg := rfl
  obtain ⟨-, hdouble, hlt⟩ := isDouble_of_exact hx
  obtain ⟨s, rfl, ⟨rfl, hx'⟩ | ⟨m, e, hm, hx', hcanonical, rfl⟩⟩ := exists_unpack hx
  · rw [hneg, hx', ← isMinus_neg]
    exact exact_pack_zero (-s)
  · rw [hneg, hx', ← isMinus_neg, ← rounded_of_isDouble hdouble hlt]
    exact exact_pack_finite (-s) hm hcanonical

/-- A significand that is taken up to an exponent or down to it is rounded. -/
theorem exact_pack_round (s : Sign) {m : ℕ} (hm : 0 < m) (e : ℤ) :
    exact (Binary64.pack (UnpackedFloat.round .binary64 s m e)) =
      .rounded (isMinus s) (m * 2 ^ e) := by
  have hv := parts_pos hm e
  have hself : Leaves m (m * 2 ^ e / 2 ^ e) .exact := mul_div_cancel_right₀ _ (two_zpow_pos e).ne'
  rw [UnpackedFloat.round, targetExponent_eq hv hself hm, decreaseExponent]
  generalize hk : (e - ulpExponent (m * 2 ^ e)).toNat = k
  refine exact_pack_roundWithAccuracy s hv ?_ (by omega)
  show (m * 2 ^ e / 2 ^ (e - k) : ℚ) = (m <<< k : ℕ)
  have hexp : e = k + (e - k) := by omega
  rw [Nat.shiftLeft_eq, div_eq_iff (two_zpow_pos _).ne']
  conv_lhs => rw [hexp, two_zpow_add, zpow_natCast]
  push_cast
  ring

/-- **A whole number with an exponent is rounded.** -/
theorem exact_pack_normalize (n : ℕ) (e : ℤ) :
    exact (Binary64.pack (UnpackedFloat.normalize .binary64 n e .positive)) =
      .rounded false (n * 2 ^ e) := by
  rcases Nat.eq_zero_or_pos n with rfl | hn
  · rw [Nat.cast_zero, Nat.cast_zero, zero_mul]
    exact exact_zero .positive
  · rw [UnpackedFloat.normalize, Int.compare_eq_gt.2 (by omega)]
    exact exact_pack_round .positive hn e

/-- So is a negative one. -/
theorem exact_pack_normalize_neg {n : ℕ} (hn : 0 < n) (e : ℤ) :
    exact (Binary64.pack (UnpackedFloat.normalize .binary64 (-n) e .positive)) =
      .rounded true (n * 2 ^ e) := by
  rw [UnpackedFloat.normalize, Int.compare_eq_lt.2 (by omega), neg_neg]
  exact exact_pack_round .negative hn e

/-! ### Literals -/

/-- The powers of ten in the table are exact. -/
theorem exact_exactlyRepresentablePowersOfTen : ∀ k : Fin 23,
    exact (getElem Float.exactlyRepresentablePowersOfTen k.val k.isLt) =
      .finite false (10 ^ k.val) := by
  decide +kernel

theorem isDouble_natCast {n : ℕ} (hn : n < 2 ^ 53) : IsDouble n := ⟨n, 0, hn, by norm_num, by simp⟩

theorem natCast_lt_doubleLimit {n : ℕ} (hn : n < 2 ^ 53) : (n : ℚ) < doubleLimit := by
  have h : (n : ℚ) < 2 ^ 53 := by exact_mod_cast hn
  refine h.trans ?_
  rw [← zpow_natCast]
  exact two_zpow_lt_iff.2 (by norm_num)

theorem exact_toUInt64_toFloat {n : ℕ} (hn : n < 2 ^ 53) :
    exact n.toUInt64.toFloat = .finite false n := by
  have hfloat : n.toUInt64.toFloat =
      Binary64.pack (UnpackedFloat.normalize .binary64 (n.toUInt64.toNat : ℕ) 0 .positive) := rfl
  have hnat : n.toUInt64.toNat = n := UInt64.toNat_ofNat_of_lt' (hn.trans (by norm_num))
  rw [hfloat, hnat, exact_pack_normalize, zpow_zero, mul_one,
    rounded_of_isDouble (isDouble_natCast hn) (natCast_lt_doubleLimit hn)]

section

variable {n : ℕ} {k : ℤ}

/-- A power of ten that is not even looked at is too large. -/
theorem doubleLimit_le_of_lt (hn : n ≠ 0) (hk : 2048 < k) : doubleLimit ≤ n * 10 ^ k := by
  have hone : (1 : ℚ) ≤ n := by exact_mod_cast Nat.pos_of_ne_zero hn
  calc doubleLimit ≤ 2 ^ k := two_zpow_le_iff.2 (by omega)
    _ ≤ 10 ^ k := zpow_le_zpow_left₀ (by omega) (by norm_num) (by norm_num)
    _ ≤ n * 10 ^ k := le_mul_of_one_le_left (by positivity) hone

/-- Or it is too small. -/
theorem lt_of_lt_neg (hk : k < -(2048 + n.log2)) : (n * 10 ^ k : ℚ) < 2 ^ (-1075 : ℤ) := by
  obtain ⟨j, rfl⟩ : ∃ j : ℕ, k = -j := ⟨(-k).toNat, by omega⟩
  have hlog : (n : ℚ) < 2 ^ ((n.log2 : ℤ) + 1) := by exact_mod_cast Nat.lt_log2_self (n := n)
  calc (n * 10 ^ (-j : ℤ) : ℚ) ≤ n * 2 ^ (-j : ℤ) := by
        rw [zpow_neg, zpow_neg, zpow_natCast, zpow_natCast]
        gcongr
        norm_num
    _ < 2 ^ ((n.log2 : ℤ) + 1) * 2 ^ (-j : ℤ) := mul_lt_mul_of_pos_right hlog (two_zpow_pos _)
    _ = 2 ^ ((n.log2 : ℤ) + 1 + -j) := (two_zpow_add _ _).symm
    _ ≤ 2 ^ (-1075 : ℤ) := two_zpow_le_iff.2 (by omega)

end

/-- **A significand with a power of ten is rounded,** also where the power is not even looked
at. -/
theorem exact_pack_ofScientific (n : ℕ) (k : ℤ) :
    exact (Binary64.pack (UnpackedFloat.ofScientific .binary64 n k)) =
      .rounded false (n * 10 ^ k) := by
  have hexponent : (2 ^ Format.binary64.exponentBits : ℤ) = 2048 := rfl
  have hbits : Format.binary64.mantissaBits = 53 := rfl
  simp only [UnpackedFloat.ofScientific, hexponent, hbits]
  split_ifs with hn hlarge hsmall hsign
  · rw [hn, Nat.cast_zero, zero_mul]
    exact exact_zero .positive
  · rw [Exact.rounded, if_neg (not_lt.2 (doubleLimit_le_nearest (doubleLimit_le_of_lt hn hlarge)))]
    exact congrArg Binary64.exact (Binary64.ofFloat_pack_infinity .positive)
  · have hpos : (0 : ℚ) < n := by exact_mod_cast Nat.pos_of_ne_zero hn
    rw [Exact.rounded, nearest_eq_zero (by positivity) (lt_of_lt_neg hsmall),
      if_pos doubleLimit_pos]
    exact exact_pack_zero .positive
  · obtain ⟨k, rfl⟩ := Int.eq_ofNat_of_zero_le hsign
    have hvalue : (((n <<< 53 : ℕ) : ℚ) * 2 ^ (-(53 : ℕ) : ℤ) *
        ((10 ^ (k : ℤ).toNat : ℕ) * 2 ^ (0 : ℤ))) = n * 10 ^ (k : ℤ) := by
      have hshift : ((2 ^ 53 : ℕ) : ℚ) * 2 ^ (-(53 : ℕ) : ℤ) = 1 := by norm_num
      rw [Nat.shiftLeft_eq, zpow_natCast, Int.toNat_natCast, Nat.cast_mul, mul_assoc (n : ℚ),
        hshift, zpow_zero, mul_one, mul_one, Nat.cast_pow, Nat.cast_ofNat]
    have hone : (1 : ℚ) ≤ n * 10 ^ (k : ℤ) := by
      rw [zpow_natCast]
      exact_mod_cast Nat.mul_pos (Nat.pos_of_ne_zero hn) (Nat.pow_pos (by norm_num))
    rw [← hvalue] at hone ⊢
    refine exact_mul_parts .positive .positive _ _ (le_ulpExponent_of_le (le_trans ?_ hone))
    norm_num
  · obtain ⟨j, rfl⟩ : ∃ j : ℕ, k = -j := ⟨(-k).toNat, by omega⟩
    have hvalue : ((n : ℚ) * 2 ^ (0 : ℤ) / ((10 ^ (- -(j : ℤ)).toNat : ℕ) * 2 ^ (0 : ℤ))) =
        n * 10 ^ (-j : ℤ) := by
      rw [neg_neg, Int.toNat_natCast, zpow_neg, zpow_natCast, zpow_zero, mul_one, mul_one,
        div_eq_mul_inv]
      push_cast
      rfl
    rw [← hvalue]
    exact exact_div_parts .positive .positive _ _

/-- **A literal is the double nearest to its value.** -/
theorem exact_ofScientific (n : ℕ) (left : Bool) (k : ℕ) :
    exact (Float.ofScientific n left k) =
      .rounded false (n * 10 ^ (if left then -k else k : ℤ)) := by
  rw [Float.ofScientific]
  split_ifs with hfast hleft hleft
  · have hpower := exact_exactlyRepresentablePowersOfTen ⟨k, by omega⟩
    rw [zpow_neg, zpow_natCast]
    exact exact_div (exact_toUInt64_toFloat hfast.1) hpower (by positivity)
  · have hpower := exact_exactlyRepresentablePowersOfTen ⟨k, by omega⟩
    exact exact_mul (exact_toUInt64_toFloat hfast.1) hpower
  · have hmodel := exact_pack_ofScientific n (Int.negOfNat k)
    rwa [Int.negOfNat_eq] at hmodel
  · exact exact_pack_ofScientific n k

theorem exact_ofNat (n : ℕ) : exact (Float.ofNat n) = .rounded false n := by
  have h := exact_ofScientific n false 0
  rwa [if_neg Bool.false_ne_true, Nat.cast_zero, zpow_zero, mul_one] at h

theorem exact_ofDecimal (negative : Bool) (n k : ℕ) (h : nearest (n / 10 ^ k) < doubleLimit) :
    exact (ofDecimal ⟨negative, n, k⟩ : Float) = .finite negative (nearest (n / 10 ^ k)) := by
  have hmagnitude : exact (Float.ofScientific n true k) = .finite false (nearest (n / 10 ^ k)) := by
    rw [exact_ofScientific, if_pos rfl, zpow_neg, zpow_natCast, ← div_eq_mul_inv, Exact.rounded,
      if_pos h]
  cases negative with
  | false => exact hmagnitude
  | true => exact exact_neg hmagnitude

/-! ### The integer part and the nearest integer -/

theorem exact_toFloat (a : Bool) {n : ℕ} (hn : n < 2 ^ 53) :
    exact (Binary64.toFloat a n) = .finite a n := by
  have hnat : exact (Float.ofNat n) = .finite false n := by
    rw [exact_ofNat, rounded_of_isDouble (isDouble_natCast hn) (natCast_lt_doubleLimit hn)]
  cases a with
  | false => exact hnat
  | true => exact exact_neg hnat

/-- **Dropping the fraction is exact.** -/
theorem exact_trunc (hx : exact x = .finite a u) : exact (trunc x) = .finite a ⌊u⌋ := by
  obtain ⟨m, e, hparts, rfl⟩ := exact_eq_finite_iff.1 hx
  have hm := (Binary64.isCanonical_of_ofFloat hparts).1.lt
  show exact (Binary64.trunc x) = _
  rw [Binary64.trunc, hparts]
  cases e with
  | ofNat k =>
    have hwhole : (m * 2 ^ (Int.ofNat k) : ℚ) = ((m * 2 ^ k : ℕ) : ℤ) := by
      push_cast
      rfl
    rw [hwhole, Int.floor_intCast, ← hwhole]
    exact hx
  | negSucc k =>
    have hquot : (m * 2 ^ (Int.negSucc k) : ℚ) = (m : ℚ) / (2 ^ (k + 1) : ℕ) := by
      rw [zpow_negSucc, div_eq_mul_inv]
      push_cast
      rfl
    have hlt : m / 2 ^ (k + 1) < 2 ^ 53 := (Nat.div_le_self _ _).trans_lt hm
    show exact (Binary64.toFloat a (m >>> (k + 1))) = _
    rw [hquot, Rat.floor_natCast_div_natCast, Nat.shiftRight_eq_div_pow, exact_toFloat a hlt]
    rfl

/-- **Rounding to the nearest integer is exact.** -/
theorem exact_round (hx : exact x = .finite a u) : exact (round x) = .finite a ⌊u + 1 / 2⌋ := by
  obtain ⟨m, e, hparts, rfl⟩ := exact_eq_finite_iff.1 hx
  have hm := (Binary64.isCanonical_of_ofFloat hparts).1.lt
  show exact (Binary64.round x) = _
  rw [Binary64.round, hparts]
  cases e with
  | ofNat k =>
    have hwhole : (m * 2 ^ (Int.ofNat k) : ℚ) = ((m * 2 ^ k : ℕ) : ℤ) := by
      push_cast
      rfl
    have hfloor : ⌊(((m * 2 ^ k : ℕ) : ℤ) : ℚ) + 1 / 2⌋ = (m * 2 ^ k : ℕ) := by
      rw [Int.floor_intCast_add]
      norm_num
    rw [hwhole, hfloor, ← hwhole]
    exact hx
  | negSucc k =>
    have hquot : (m * 2 ^ (Int.negSucc k) + 1 / 2 : ℚ) =
        ((m + 2 ^ k : ℕ) : ℚ) / (2 ^ (k + 1) : ℕ) := by
      rw [zpow_negSucc, ← div_eq_mul_inv]
      push_cast
      rw [pow_succ]
      field_simp
    have hlt : (m + 2 ^ k) / 2 ^ (k + 1) < 2 ^ 53 := by
      have hone : 0 < 2 ^ k := Nat.two_pow_pos k
      rw [Nat.div_lt_iff_lt_mul (Nat.two_pow_pos _), pow_succ 2 k, mul_two, mul_add]
      exact Nat.add_lt_add_of_lt_of_le (hm.trans_le (Nat.le_mul_of_pos_right _ hone))
        (Nat.le_mul_of_pos_left _ (by norm_num))
    show exact (Binary64.toFloat a ((m + 1 <<< k) >>> (k + 1))) = _
    rw [hquot, Rat.floor_natCast_div_natCast, Nat.shiftRight_eq_div_pow, Nat.shiftLeft_eq, one_mul,
      exact_toFloat a hlt]
    rfl

/-- An infinity is not rounded. -/
theorem round_infinite (hx : exact x = .infinite a) : round x = x := by
  have hparts : (Binary64.ofFloat x).exact = .infinite a := hx
  show Binary64.round x = x
  rw [Binary64.round]
  cases h : Binary64.ofFloat x with
  | nan => rfl
  | infinite b => rfl
  | finite b m e => rw [h] at hparts; cases hparts

/-! ### Differences and comparisons -/

theorem exists_exact_pack_normalize (k e : ℤ) : ∃ b,
    exact (Binary64.pack (UnpackedFloat.normalize .binary64 k e .positive)) =
      .rounded b (|(k : ℚ)| * 2 ^ e) := by
  obtain ⟨n, rfl | rfl⟩ := k.eq_nat_or_neg
  · exact ⟨false, by rw [exact_pack_normalize, Int.cast_natCast, Nat.abs_cast]⟩
  · rcases Nat.eq_zero_or_pos n with rfl | hn
    · exact ⟨false, by simpa using exact_pack_normalize 0 e⟩
    · exact ⟨true, by rw [exact_pack_normalize_neg hn, Int.cast_neg, abs_neg, Int.cast_natCast,
        Nat.abs_cast]⟩

theorem nearest_eq_zero_of_rounded {v : ℚ} (h : Exact.rounded a v = .finite b 0) :
    nearest v = 0 := by
  rw [Exact.rounded] at h
  split_ifs at h
  exact (Exact.finite.inj h).2

theorem eq_of_isMinus_eq {s t : Sign} (h : isMinus s = isMinus t) : s = t := by
  cases s <;> cases t <;> first | rfl | cases h

/-- Taking an exponent down keeps the value. -/
theorem decreaseExponent_value {m : ℕ} {e g : ℤ} (hg : g ≤ e) :
    ((decreaseExponent m e g).1 : ℚ) * 2 ^ g = m * 2 ^ e := by
  have hexp : e = ((e - g).toNat : ℕ) + g := by omega
  rw [decreaseExponent, Nat.shiftLeft_eq]
  conv_rhs => rw [hexp, two_zpow_add, zpow_natCast]
  push_cast
  ring

theorem abs_apply_sub (s : Sign) (k l : ℤ) : |s.apply k - s.apply l| = |k - l| := by
  cases s with
  | positive => rfl
  | negative =>
    show |-k - -l| = _
    rw [neg_sub_neg, abs_sub_comm]

/-- **A difference is zero only if both values are the same.** -/
theorem eq_of_exact_sub (hx : exact x = .finite a u) (hy : exact y = .finite a w)
    (h : exact (x - y) = .finite b 0) : u = w := by
  have hsub : x - y =
      Binary64.pack (UnpackedFloat.sub .binary64 x.toModel.unpack y.toModel.unpack) := rfl
  rw [hsub] at h
  obtain ⟨s, rfl, ⟨rfl, hx'⟩ | ⟨m, e, hm, hx', hcanonical, rfl⟩⟩ := exists_unpack hx
  · obtain ⟨t, ht, ⟨rfl, hy'⟩ | ⟨n, f, hn, hy', hcanonical', rfl⟩⟩ := exists_unpack hy
    · rfl
    · rw [hx', hy', UnpackedFloat.sub, exact_pack_finite _ hn hcanonical'] at h
      rw [← hcanonical'.isDouble.nearest_eq, nearest_eq_zero_of_rounded h]
  · obtain ⟨t, ht, ⟨rfl, hy'⟩ | ⟨n, f, hn, hy', hcanonical', rfl⟩⟩ := exists_unpack hy
    · have hself : UnpackedFloat.sub .binary64 (.finite s m e hm) (.zero t) =
          .finite s m e hm := rfl
      rw [hx', hy', hself, exact_pack_finite _ hm hcanonical] at h
      rw [← hcanonical.isDouble.nearest_eq, nearest_eq_zero_of_rounded h]
    · obtain rfl := eq_of_isMinus_eq ht
      have hparts : UnpackedFloat.sub .binary64 (.finite t m e hm) (.finite t n f hn) =
          UnpackedFloat.normalize .binary64 (t.apply (decreaseExponent m e (min e f)).1 -
            t.apply (decreaseExponent n f (min e f)).1) (min e f) .positive := rfl
      rw [hx', hy', hparts] at h
      rw [← decreaseExponent_value (min_le_left e f), ← decreaseExponent_value (min_le_right e f)]
      generalize (decreaseExponent m e (min e f)).1 = k at h ⊢
      generalize (decreaseExponent n f (min e f)).1 = l at h ⊢
      obtain ⟨c, hc⟩ := exists_exact_pack_normalize (t.apply k - t.apply l) (min e f)
      have hzero := nearest_eq_zero_of_rounded (hc.symm.trans h)
      rw [← Int.cast_abs, abs_apply_sub] at hzero
      by_cases hkl : (k : ℤ) - l = 0
      · rw [Int.natCast_inj.1 (sub_eq_zero.1 hkl)]
      · have hone : (1 : ℚ) ≤ |(k : ℤ) - l| := by exact_mod_cast Int.one_le_abs hkl
        have hleast : (2 : ℚ) ^ (-1074 : ℤ) ≤ 2 ^ min e f :=
          two_zpow_le_iff.2 (le_min hcanonical.le_exponent hcanonical'.le_exponent)
        have hpos := nearest_pos (hleast.trans (le_mul_of_one_le_left (two_zpow_pos _).le hone))
        exact absurd hzero hpos.ne'

/-- The parts of the number one. -/
theorem exists_unpack_one :
    ∃ m e hm, (ofInt 1 : Float).toModel.unpack = .finite .positive m e hm := by
  have hone : exact (ofInt 1 : Float) = .finite false 1 := by
    have h := exact_toFloat false (n := 1) (by norm_num)
    rwa [Nat.cast_one] at h
  obtain ⟨s, hs, ⟨h, -⟩ | ⟨m, e, hm, hparts, -⟩⟩ := exists_unpack hone
  · exact absurd h one_ne_zero
  · obtain rfl : s = .positive := eq_of_isMinus_eq hs
    exact ⟨m, e, hm, hparts⟩

/-- **A finite value that is not at most one is positive.** -/
theorem pos_of_not_le_one (hx : exact x = .finite a u) (h : ¬ x ≤ ofInt 1) : a = false ∧ 0 < u := by
  have hle : x ≤ ofInt 1 ↔
      UnpackedFloat.le x.toModel.unpack (ofInt 1 : Float).toModel.unpack = true := by
    show decide (x.toModel ≤ (ofInt 1 : Float).toModel) = true ↔ _
    exact decide_eq_true_iff
  obtain ⟨n, f, hn, hone⟩ := exists_unpack_one
  rw [hle, hone] at h
  obtain ⟨s, rfl, ⟨rfl, hx'⟩ | ⟨m, e, hm, hx', hcanonical, rfl⟩⟩ := exists_unpack hx
  · rw [hx'] at h
    exact absurd rfl h
  · rw [hx'] at h
    cases s with
    | negative => exact absurd rfl h
    | positive => exact ⟨rfl, parts_pos hm e⟩

/-- **Zeros are equal to zero,** and no other values. -/
theorem beq_zero_iff : (x == ofInt 0) = true ↔ ∃ b, exact x = .finite b 0 := by
  have hzero : exact (ofInt 0 : Float) = .finite false 0 := by
    have h := exact_toFloat false (n := 0) (by norm_num)
    rwa [Nat.cast_zero] at h
  obtain ⟨s, -, ⟨-, hparts⟩ | ⟨m, e, hm, -, -, h⟩⟩ := exists_unpack hzero
  · have hbeq : (x == ofInt 0) =
        UnpackedFloat.beq x.toModel.unpack (ofInt 0 : Float).toModel.unpack := rfl
    rw [hbeq, hparts]
    constructor
    · intro h
      rw [exact_eq_exact_ofUnpacked]
      cases hx : x.toModel.unpack with
      | notANumber => rw [hx] at h; cases h
      | infinity t => rw [hx] at h; cases t <;> cases h
      | zero t => exact ⟨isMinus t, Binary64.exact_ofUnpacked_zero t⟩
      | finite t m e hm => rw [hx] at h; cases t <;> cases h
    · rintro ⟨b, hb⟩
      obtain ⟨t, -, ⟨-, hx⟩ | ⟨m, e, hm, -, -, h⟩⟩ := exists_unpack hb
      · rw [hx]
        rfl
      · exact absurd h.symm (parts_pos hm e).ne'
  · exact absurd h.symm (parts_pos hm e).ne'

/-- **A value that is known to be whole is whole.** -/
theorem eq_floor_of_isWhole (hx : exact x = .finite a u) (h : isWhole x = true) : u = ⌊u⌋ := by
  obtain ⟨b, hb⟩ := beq_zero_iff.1 h
  exact eq_of_exact_sub hx (exact_trunc hx) hb

end Scalar
end DiceFormula
