/-
# Doubles and their parts

Arithmetic on doubles takes them apart into a sign, a significand and an exponent, and packs the
result together again.  The parts are those that are read off the bits (`Binary64.ofFloat_eq`),
and they are canonical (`Binary64.isCanonical_of_ofFloat`): the significand lies between `2 ^ 52`
and `2 ^ 53`, or the exponent is the least one.  So a double that is not zero is known by its sign
and its value (`Scalar.eq_of_exact_eq`), and canonical parts come back when they are packed and
taken apart again, unless the exponent is too large (`Binary64.ofFloat_pack_finite`).
-/

import DiceFormula.Proofs.Number.Nearest
import Mathlib

namespace DiceFormula

open Float.Model Float.Model.UnpackedFloat

/-- Whether a sign is a minus. -/
def isMinus : Sign → Bool
  | .negative => true
  | .positive => false

/-- The parts of a double, as they are read off its bits. -/
def Binary64.ofUnpacked : UnpackedFloat → Binary64
  | .notANumber => .nan
  | .infinity s => .infinite (isMinus s)
  | .zero s => .finite (isMinus s) 0 (-1074)
  | .finite s m e _ => .finite (isMinus s) m e

namespace Binary64

variable (s : Sign) (m : ℕ) (e : ℤ) (hm : 0 < m)

@[simp]
theorem ofUnpacked_notANumber : ofUnpacked .notANumber = .nan := rfl

@[simp]
theorem ofUnpacked_infinity : ofUnpacked (.infinity s) = .infinite (isMinus s) := rfl

@[simp]
theorem ofUnpacked_zero : ofUnpacked (.zero s) = .finite (isMinus s) 0 (-1074) := rfl

@[simp]
theorem ofUnpacked_finite : ofUnpacked (.finite s m e hm) = .finite (isMinus s) m e := rfl

end Binary64

/-! ### Bits -/

section

variable (b : BitVec 64)

theorem toNat_unpackMantissa : (@unpackMantissa .binary64 b).toNat = b.toNat % 2 ^ 52 := by
  simp [unpackMantissa]

theorem toNat_unpackExponent :
    (@unpackExponent .binary64 b).toNat = b.toNat >>> 52 % 2048 := by
  simp [unpackExponent]

theorem toNat_unpackSign : (@unpackSign .binary64 b).toNat = b.toNat >>> 63 := by
  have hlt := b.isLt
  show (b.extractLsb 63 63).toNat = _
  rw [BitVec.extractLsb_toNat, Nat.shiftRight_eq_div_pow]
  omega

theorem toNat_one_append {n : ℕ} (m : BitVec n) : (1#1 ++ m).toNat = 2 ^ n + m.toNat := by
  rw [BitVec.toNat_append, ← Nat.shiftLeft_add_eq_or_of_lt m.isLt, Nat.shiftLeft_eq]
  simp

theorem isMinus_ofBitVec (s : BitVec 1) : isMinus (Sign.ofBitVec s) = (s.toNat == 1) := by
  have hlt := s.isLt
  rw [Sign.ofBitVec]
  by_cases h : s = 0#1
  · rw [if_pos h, h]
    rfl
  · have hone : s.toNat = 1 := by
      have hne : s.toNat ≠ 0 := fun h0 => h (BitVec.eq_of_toNat_eq h0)
      omega
    rw [if_neg h, hone]
    rfl

end

namespace Binary64

/-- **Taking a double apart reads its parts off its bits.** -/
theorem ofFloat_eq (x : Float) : ofFloat x = ofUnpacked x.toModel.unpack := by
  have hbits : x.toBits.toNat = x.toModel.toBits.toBitVec.toNat := rfl
  rw [ofFloat, Float.Model.unpack, hbits]
  generalize x.toModel.toBits.toBitVec = b
  have hmant := toNat_unpackMantissa b
  have hexp := toNat_unpackExponent b
  have hsign := isMinus_ofBitVec (@unpackSign .binary64 b)
  rw [toNat_unpackSign] at hsign
  have hlead : leadingBit = 2 ^ 52 := rfl
  have htop : @unpackExponent .binary64 b = -1#_ ↔ b.toNat >>> 52 % 2048 = 2047 := by
    rw [← BitVec.toNat_inj, hexp]
    rfl
  have hbottom : @unpackExponent .binary64 b = 0#_ ↔ b.toNat >>> 52 % 2048 = 0 := by
    rw [← BitVec.toNat_inj, hexp]
    rfl
  have hzero : @unpackMantissa .binary64 b = 0#_ ↔ b.toNat % 2 ^ 52 = 0 := by
    rw [← BitVec.toNat_inj, hmant]
    rfl
  show _ = ofUnpacked (if @unpackExponent .binary64 b = -1#_ then
      if @unpackMantissa .binary64 b = 0#_ then _ else _
    else if @unpackExponent .binary64 b = 0#_ then
      if _ : @unpackMantissa .binary64 b = 0#_ then _ else _
    else _)
  by_cases h₁ : b.toNat >>> 52 % 2048 = 2047
  · rw [if_pos h₁, if_pos (htop.2 h₁), hlead]
    by_cases h₂ : b.toNat % 2 ^ 52 = 0
    · rw [if_pos h₂, if_pos (hzero.2 h₂), ofUnpacked_infinity, hsign]
    · rw [if_neg h₂, if_neg (hzero.not.2 h₂), ofUnpacked_notANumber]
  · rw [if_neg h₁, if_neg (htop.not.2 h₁), hlead]
    by_cases h₂ : b.toNat >>> 52 % 2048 = 0
    · rw [if_pos h₂, if_pos (hbottom.2 h₂)]
      by_cases h₃ : b.toNat % 2 ^ 52 = 0
      · rw [dif_pos (hzero.2 h₃), ofUnpacked_zero, hsign, h₃]
      · rw [dif_neg (hzero.not.2 h₃), ofUnpacked_finite, hsign, hmant, hexp, h₂]
        rfl
    · have happend : (1#1 ++ @unpackMantissa .binary64 b).toNat = 2 ^ 52 + b.toNat % 2 ^ 52 := by
        rw [toNat_one_append, hmant]
      rw [if_neg h₂, if_neg (hbottom.not.2 h₂), ofUnpacked_finite, hsign, happend, hexp]
      rfl

end Binary64

/-! ### Canonical parts -/

/-- A significand and an exponent on the grid of normal numbers, or on the finest grid. -/
structure IsCanonical (m : ℕ) (e : ℤ) : Prop where
  lt : m < 2 ^ 53
  le_exponent : -1074 ≤ e
  normal : 2 ^ 52 ≤ m ∨ e = -1074

namespace Binary64

variable {x y : Float} {negative : Bool} {m : ℕ} {e : ℤ}

/-- The parts of a double are canonical, and its exponent is not too large. -/
theorem isCanonical_of_ofFloat (h : ofFloat x = .finite negative m e) :
    IsCanonical m e ∧ e ≤ 971 := by
  have hlead : leadingBit = 2 ^ 52 := rfl
  have hmod : x.toBits.toNat % 2 ^ 52 < 2 ^ 52 := Nat.mod_lt _ (by norm_num)
  have hmod' : x.toBits.toNat >>> 52 % 2048 < 2048 := Nat.mod_lt _ (by norm_num)
  simp only [ofFloat, hlead] at h
  split_ifs at h with h₁ h₂ h₃
  · cases h
    exact ⟨⟨by omega, by omega, .inr rfl⟩, by omega⟩
  · cases h
    exact ⟨⟨by omega, by omega, .inl (by omega)⟩, by omega⟩

/-- The bits of a double, from its parts. -/
theorem toBits_of_ofFloat (h : ofFloat x = .finite negative m e) :
    x.toBits.toNat = (if negative then 2 ^ 63 else 0) +
      if m < 2 ^ 52 then m else (e + 1075).toNat * 2 ^ 52 + (m - 2 ^ 52) := by
  have hlead : leadingBit = 2 ^ 52 := rfl
  have hlt : x.toBits.toNat < 2 ^ 64 := x.toBits.toBitVec.isLt
  have hmod : x.toBits.toNat % 2 ^ 52 < 2 ^ 52 := Nat.mod_lt _ (by norm_num)
  simp only [ofFloat, hlead, Nat.shiftRight_eq_div_pow] at h
  generalize x.toBits.toNat = b at *
  have hsign : (b / 2 ^ 63 == 1) = decide (2048 ≤ b / 2 ^ 52) := by
    rw [Bool.eq_iff_iff, beq_iff_eq, decide_eq_true_iff]
    omega
  have hsplit : b = 2 ^ 52 * (b / 2 ^ 52) + b % 2 ^ 52 := (Nat.div_add_mod ..).symm
  have hquot : b / 2 ^ 52 < 4096 := by omega
  rw [hsign] at h
  generalize b / 2 ^ 52 = q at *
  generalize b % 2 ^ 52 = r at *
  split_ifs at h with h₁ h₂ h₃
  · cases h
    by_cases hq : 2048 ≤ q
    · rw [decide_eq_true hq, if_pos rfl, if_pos hmod]
      omega
    · rw [decide_eq_false hq, if_neg Bool.false_ne_true, if_pos hmod]
      omega
  · cases h
    by_cases hq : 2048 ≤ q
    · rw [decide_eq_true hq, if_pos rfl, if_neg (by omega)]
      omega
    · rw [decide_eq_false hq, if_neg Bool.false_ne_true, if_neg (by omega)]
      omega

end Binary64

/-! ### Packing -/

/-- The bits of a sign, an exponent and a fraction that are put together. -/
theorem toNat_packComponents (s : Sign) (e : BitVec 11) (m : BitVec 52) :
    (packComponents .binary64 s e m).toNat =
      (if isMinus s then 2 ^ 63 else 0) + e.toNat * 2 ^ 52 + m.toNat := by
  have hhigh : (s.toBitVec ++ e).toNat = (if isMinus s then 2 ^ 11 else 0) + e.toNat := by
    rw [BitVec.toNat_append, ← Nat.shiftLeft_add_eq_or_of_lt e.isLt, Nat.shiftLeft_eq]
    cases s <;> rfl
  rw [packComponents, BitVec.toNat_append, ← Nat.shiftLeft_add_eq_or_of_lt m.isLt,
    Nat.shiftLeft_eq, hhigh]
  show _ * 2 ^ 52 + m.toNat = _
  split_ifs <;> omega

namespace Binary64

/-- The double with the given parts. -/
def pack (f : UnpackedFloat) : Float := .ofModel (.pack f)

theorem toBits_pack (f : UnpackedFloat) :
    (pack f).toBits.toNat = (UnpackedFloat.pack .binary64 f).toNat := rfl

/-- The parts of a double that is put together. -/
theorem ofFloat_pack {f : UnpackedFloat} {s : Sign} {e : BitVec 11} {m : BitVec 52}
    (h : UnpackedFloat.pack .binary64 f = packComponents .binary64 s e m) :
    ofFloat (pack f) =
      if e.toNat = 2047 then if m.toNat = 0 then .infinite (isMinus s) else .nan
      else if e.toNat = 0 then .finite (isMinus s) m.toNat (-1074)
      else .finite (isMinus s) (2 ^ 52 + m.toNat) (e.toNat - 1075) := by
  have hbits : (pack f).toBits.toNat =
      (if isMinus s then 2 ^ 63 else 0) + e.toNat * 2 ^ 52 + m.toNat := by
    rw [toBits_pack, h, toNat_packComponents]
  have he : e.toNat < 2048 := e.isLt
  have hm : m.toNat < 2 ^ 52 := m.isLt
  have hlead : leadingBit = 2 ^ 52 := rfl
  have hsign : ((pack f).toBits.toNat / 2 ^ 63 == 1) = isMinus s := by
    rw [hbits]
    cases isMinus s with
    | true => rw [if_pos rfl, beq_iff_eq]; omega
    | false => rw [if_neg Bool.false_ne_true, beq_eq_false_iff_ne]; omega
  have hexp : (pack f).toBits.toNat / 2 ^ 52 % 2048 = e.toNat := by
    rw [hbits]
    split_ifs <;> omega
  have hmod : (pack f).toBits.toNat % 2 ^ 52 = m.toNat := by
    rw [hbits]
    split_ifs <;> omega
  simp only [ofFloat, hlead, Nat.shiftRight_eq_div_pow, hsign, hexp, hmod]

theorem ofFloat_pack_infinity (s : Sign) :
    ofFloat (pack (.infinity s)) = .infinite (isMinus s) := by
  have hpack : UnpackedFloat.pack .binary64 (.infinity s) =
      packComponents .binary64 s (-1#_) 0#_ := rfl
  rw [ofFloat_pack hpack]
  rfl

theorem ofFloat_pack_zero (s : Sign) :
    ofFloat (pack (.zero s)) = .finite (isMinus s) 0 (-1074) := by
  have hpack : UnpackedFloat.pack .binary64 (.zero s) =
      packComponents .binary64 s 0#_ 0#_ := rfl
  rw [ofFloat_pack hpack]
  rfl

/-- **Canonical parts come back,** unless the exponent is too large. -/
theorem ofFloat_pack_finite (s : Sign) {m : ℕ} {e : ℤ} (hm : 0 < m) (h : IsCanonical m e) :
    ofFloat (pack (.finite s m e hm)) =
      if e ≤ 971 then .finite (isMinus s) m e else .infinite (isMinus s) := by
  have hlt := h.lt
  have hle := h.le_exponent
  have hnormal := h.normal
  have hbias : (Format.binary64.exponentBias : ℤ) = 1023 := rfl
  have hbits : Format.binary64.mantissaBits = 53 := rfl
  have hpack : UnpackedFloat.pack .binary64 (.finite s m e hm) =
      if 2048 ≤ (e + 1023 + 52).toNat + 1 then packComponents .binary64 s (-1#_) 0#_
      else if m.log2 + 1 = 53 then
        packComponents .binary64 s (BitVec.ofNat _ (e + 1023 + 52).toNat) (BitVec.ofNat _ m)
      else packComponents .binary64 s 0#_ (BitVec.ofNat _ m) := rfl
  have hlog : m.log2 + 1 = 53 ↔ 2 ^ 52 ≤ m := by
    rw [Nat.succ_inj, Nat.log2_eq_iff (by omega)]
    omega
  by_cases he : e ≤ 971
  · rw [if_pos he]
    rw [if_neg (by omega)] at hpack
    by_cases hm52 : 2 ^ 52 ≤ m
    · rw [if_pos (hlog.2 hm52)] at hpack
      rw [ofFloat_pack hpack, BitVec.toNat_ofNat, BitVec.toNat_ofNat]
      rw [if_neg (by omega), if_neg (by omega)]
      congr 1 <;> omega
    · rw [if_neg (hlog.not.2 hm52)] at hpack
      have hzero : (0#11).toNat = 0 := rfl
      rw [ofFloat_pack hpack, hzero, BitVec.toNat_ofNat, if_neg (by norm_num), if_pos rfl,
        Nat.mod_eq_of_lt (by omega), hnormal.resolve_left hm52]
  · rw [if_neg he]
    rw [if_pos (by omega)] at hpack
    rw [ofFloat_pack hpack]
    rfl

end Binary64
/-! ### Values -/

theorem Binary64.scale_eq (s : ℕ) (e : ℤ) : scale s e = s * 2 ^ e := by
  cases e with
  | ofNat k => simp [scale, Rat.mkRat_eq_div, Nat.shiftLeft_eq]
  | negSucc k => simp [scale, Rat.mkRat_eq_div, Nat.shiftLeft_eq, zpow_negSucc, div_eq_mul_inv]

theorem Binary64.exact_ofUnpacked_zero (s : Sign) :
    (ofUnpacked (.zero s)).exact = .finite (isMinus s) 0 := by
  rw [ofUnpacked_zero, exact, scale_eq, Nat.cast_zero, zero_mul]

theorem Binary64.exact_ofUnpacked_finite (s : Sign) {m : ℕ} (e : ℤ) (hm : 0 < m) :
    (ofUnpacked (.finite s m e hm)).exact = .finite (isMinus s) (m * 2 ^ e) := by
  rw [ofUnpacked_finite, exact, scale_eq]

namespace IsCanonical

variable {m m' : ℕ} {e e' : ℤ}

theorem isDouble (h : IsCanonical m e) : IsDouble (m * 2 ^ e) :=
  ⟨m, e, h.lt, h.le_exponent, rfl⟩

theorem ulpExponent_eq (h : IsCanonical m e) (hm : 0 < m) :
    ulpExponent (m * 2 ^ e) = e := by
  have hpos := two_zpow_pos e
  have hlt : (m : ℚ) < 2 ^ 53 := by exact_mod_cast h.lt
  refine DiceFormula.ulpExponent_eq (mul_pos (Nat.cast_pos.2 hm) hpos)
    (mul_lt_mul_of_pos_right hlt hpos) (h.normal.imp_left fun hle => ⟨h.le_exponent, ?_⟩)
  exact mul_le_mul_of_nonneg_right (by exact_mod_cast hle) hpos.le

/-- **Canonical parts are known by their value.** -/
theorem eq_of_mul_eq (h : IsCanonical m e) (h' : IsCanonical m' e')
    (heq : (m * 2 ^ e : ℚ) = m' * 2 ^ e') : m = m' ∧ e = e' := by
  have hpos := two_zpow_pos e
  rcases Nat.eq_zero_or_pos m with rfl | hm
  · rw [Nat.cast_zero, zero_mul, eq_comm, mul_eq_zero, or_iff_left (two_zpow_pos e').ne',
      Nat.cast_eq_zero] at heq
    subst heq
    have hleast := h.normal.resolve_left (by norm_num)
    have hleast' := h'.normal.resolve_left (by norm_num)
    exact ⟨rfl, hleast.trans hleast'.symm⟩
  · have hm' : 0 < m' := by
      by_contra hzero
      rw [Nat.eq_zero_of_not_pos hzero, Nat.cast_zero, zero_mul, mul_eq_zero,
        or_iff_left hpos.ne', Nat.cast_eq_zero] at heq
      exact hm.ne' heq
    have he : e = e' := by rw [← h.ulpExponent_eq hm, heq, h'.ulpExponent_eq hm']
    subst he
    exact ⟨by exact_mod_cast mul_right_cancel₀ hpos.ne' heq, rfl⟩

/-- A value is too large just when its exponent is. -/
theorem lt_doubleLimit_iff (h : IsCanonical m e) :
    (m * 2 ^ e : ℚ) < doubleLimit ↔ e ≤ 971 := by
  have hpos := two_zpow_pos e
  constructor
  · intro hlt
    by_contra he
    have hnormal : (2 ^ 52 : ℚ) ≤ m := by
      exact_mod_cast h.normal.resolve_right (by omega)
    have hle : doubleLimit ≤ 2 ^ 52 * 2 ^ e := by
      have hsplit : doubleLimit = 2 ^ 52 * 2 ^ (972 : ℤ) := two_zpow_add 52 972
      rw [hsplit]
      exact mul_le_mul_of_nonneg_left (two_zpow_le_iff.2 (by omega)) (by norm_num)
    linarith [mul_le_mul_of_nonneg_right hnormal hpos.le]
  · intro he
    have hlt : (m : ℚ) < 2 ^ 53 := by exact_mod_cast h.lt
    calc (m * 2 ^ e : ℚ) < 2 ^ 53 * 2 ^ e := mul_lt_mul_of_pos_right hlt hpos
      _ ≤ 2 ^ 53 * 2 ^ (971 : ℤ) := mul_le_mul_of_nonneg_left (two_zpow_le_iff.2 he) (by norm_num)
      _ = doubleLimit := (two_zpow_add 53 971).symm

end IsCanonical

namespace Scalar

variable {x y : Float} {negative : Bool} {u : ℚ}

theorem exact_eq_finite_iff : exact x = .finite negative u ↔
    ∃ m e, Binary64.ofFloat x = .finite negative m e ∧ u = m * 2 ^ e := by
  show (Binary64.ofFloat x).exact = _ ↔ _
  cases hx : Binary64.ofFloat x with
  | nan => simp [Binary64.exact]
  | infinite s => simp [Binary64.exact]
  | finite s m e =>
    rw [Binary64.exact, Binary64.scale_eq, Exact.finite.injEq]
    constructor
    · rintro ⟨rfl, rfl⟩
      exact ⟨m, e, rfl, rfl⟩
    · rintro ⟨m, e, heq, rfl⟩
      cases heq
      exact ⟨rfl, rfl⟩

/-- The value of a double is a double, and not too large. -/
theorem isDouble_of_exact (h : exact x = .finite negative u) :
    0 ≤ u ∧ IsDouble u ∧ u < doubleLimit := by
  obtain ⟨m, e, hx, rfl⟩ := exact_eq_finite_iff.1 h
  obtain ⟨hcanonical, he⟩ := Binary64.isCanonical_of_ofFloat hx
  exact ⟨mul_nonneg (Nat.cast_nonneg m) (two_zpow_pos e).le, hcanonical.isDouble,
    hcanonical.lt_doubleLimit_iff.2 he⟩

/-- **A finite double is known by its sign and its value.** -/
theorem eq_of_exact_eq (hx : exact x = .finite negative u) (hy : exact y = .finite negative u) :
    x = y := by
  obtain ⟨m, e, hx', rfl⟩ := exact_eq_finite_iff.1 hx
  obtain ⟨m', e', hy', heq⟩ := exact_eq_finite_iff.1 hy
  obtain ⟨rfl, rfl⟩ := (Binary64.isCanonical_of_ofFloat hx').1.eq_of_mul_eq
    (Binary64.isCanonical_of_ofFloat hy').1 heq
  exact Float.toBits_inj.1 (UInt64.toNat_inj.1
    ((Binary64.toBits_of_ofFloat hx').trans (Binary64.toBits_of_ofFloat hy').symm))

theorem exact_eq_exact_ofUnpacked (x : Float) :
    exact x = (Binary64.ofUnpacked x.toModel.unpack).exact := by
  rw [← Binary64.ofFloat_eq]
  rfl

theorem isFinite_iff : isFinite x = true ↔ ∃ negative u, exact x = .finite negative u := by
  show x.toModel.unpack.isFinite = true ↔ _
  rw [exact_eq_exact_ofUnpacked]
  cases x.toModel.unpack with
  | notANumber => exact ⟨by rintro ⟨⟩, by rintro ⟨_, _, ⟨⟩⟩⟩
  | infinity s => exact ⟨by rintro ⟨⟩, by rintro ⟨_, _, ⟨⟩⟩⟩
  | zero s => exact ⟨fun _ => ⟨_, _, rfl⟩, fun _ => rfl⟩
  | finite s m e hm => exact ⟨fun _ => ⟨_, _, rfl⟩, fun _ => rfl⟩

end Scalar

/-- The double nearest to a fraction, or an infinity if that is too large. -/
def Exact.rounded (negative : Bool) (v : ℚ) : Exact :=
  if nearest v < doubleLimit then .finite negative (nearest v) else .infinite negative

/-- **Packing keeps the value** of canonical parts, unless it is too large. -/
theorem Scalar.exact_pack_finite (s : Sign) {m : ℕ} {e : ℤ} (hm : 0 < m) (h : IsCanonical m e) :
    exact (Binary64.pack (.finite s m e hm)) = .rounded (isMinus s) (m * 2 ^ e) := by
  show (Binary64.ofFloat _).exact = _
  rw [Binary64.ofFloat_pack_finite s hm h, Exact.rounded, h.isDouble.nearest_eq]
  simp only [h.lt_doubleLimit_iff]
  split_ifs
  · rw [Binary64.exact, Binary64.scale_eq]
  · rfl

theorem Scalar.exact_pack_zero (s : Sign) :
    exact (Binary64.pack (.zero s)) = .finite (isMinus s) 0 := by
  show (Binary64.ofFloat _).exact = _
  rw [Binary64.ofFloat_pack_zero, Binary64.exact, Binary64.scale_eq, Nat.cast_zero, zero_mul]

end DiceFormula
