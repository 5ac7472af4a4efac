/-
# Where results are

A finite double has a value (`Scalar.HasValue`), and what an operation makes of finite doubles
is where the exact result is once it is rounded.

| result | place |
| --- | --- |
| `x + y`, `x - y` | `round (v + w)`, `round (v - w)` |
| `x * y` | `round (v * w)` |
| `x / y` | `round (v / w)`, if `w` is not zero |

A sum is where the other term shifts the first to, and that one may be an infinity
(`Scalar.place?_add`).  So sums are monotone (`Scalar.add_le_add`), as long as infinities come from
one side only.

Integer parts are exact and monotone, and whole numbers stay whole under rounding
(`Place.isWhole_round`), so doubles that are whole add up and multiply to such, or to infinities.
-/

import DiceFormula.Proofs.Number.Monotone
import DiceFormula.Proofs.Number.Rational

namespace DiceFormula

open Float.Model Float.Model.UnpackedFloat

namespace Place

/-- Where a sum is, with a term `v` and another that is at this point. -/
def shift (v : ℚ) : Place → Place
  | none => ⊥
  | some none => ⊤
  | some (some w) => round (v + w)

/-- The point on the other side of zero. -/
def neg : Place → Place
  | none => ⊤
  | some none => ⊥
  | some (some v) => .of (-v)

theorem of_injective {v w : ℚ} (h : Place.of v = Place.of w) : v = w :=
  le_antisymm (of_le_of.1 h.le) (of_le_of.1 h.ge)

theorem shift_of (v w : ℚ) : shift v (.of w) = round (v + w) := rfl

theorem neg_of (v : ℚ) : neg (.of v) = .of (-v) := rfl

theorem shift_le_shift {v w : ℚ} (h : v ≤ w) : ∀ {p q : Place}, p ≤ q → shift v p ≤ shift w q
  | none, _, _ => bot_le
  | _, some none, _ => le_top
  | some none, none, h => absurd (le_bot_iff.1 h) (by rintro ⟨⟩)
  | some (some v), none, h => absurd (le_bot_iff.1 h) (by rintro ⟨⟩)
  | some none, some (some w), h => absurd (top_le_iff.1 (WithBot.coe_le_coe.1 h)) (by rintro ⟨⟩)
  | some (some _), some (some _), h' => round_mono (add_le_add h (of_le_of.1 h'))

theorem neg_anti : ∀ {p q : Place}, p ≤ q → neg q ≤ neg p
  | none, _, _ => le_top
  | _, some none, _ => bot_le
  | some none, none, h => absurd (le_bot_iff.1 h) (by rintro ⟨⟩)
  | some (some v), none, h => absurd (le_bot_iff.1 h) (by rintro ⟨⟩)
  | some none, some (some w), h => absurd (top_le_iff.1 (WithBot.coe_le_coe.1 h)) (by rintro ⟨⟩)
  | some (some _), some (some _), h => of_le_of.2 (neg_le_neg (of_le_of.1 h))

end Place

/-! ### Sums -/

namespace Scalar

variable {x y : Float} {v w : ℚ}

/-- A finite double with this value. -/
def HasValue (x : Float) (v : ℚ) : Prop := place? x = some (.of v)

theorem place?_pack_normalize (k e : ℤ) :
    place? (Binary64.pack (UnpackedFloat.normalize .binary64 k e .positive)) =
      some (.round (k * 2 ^ e)) := by
  obtain ⟨n, rfl | rfl⟩ := k.eq_nat_or_neg
  · have hplace := Exact.place?_rounded (a := false)
      (mul_nonneg (Nat.cast_nonneg (α := ℚ) n) (two_zpow_pos e).le)
    rwa [← exact_pack_normalize, withSign, if_neg Bool.false_ne_true] at hplace
  · rcases Nat.eq_zero_or_pos n with rfl | hn
    · have hzero : place? (Binary64.pack (.zero .positive)) = some (.round 0) := by
        rw [place?, exact_zero, Exact.place?_rounded le_rfl, withSign_zero]
      rw [Nat.cast_zero, neg_zero, Int.cast_zero, zero_mul]
      exact hzero
    · have hplace := Exact.place?_rounded (a := true) (parts_pos hn e).le
      rwa [← exact_pack_normalize_neg hn, withSign, if_pos rfl, ← neg_mul] at hplace

theorem withSign_parts (s : Sign) (m : ℕ) (e : ℤ) :
    withSign (isMinus s) (m * 2 ^ e) = (s.apply m : ℤ) * 2 ^ e := by
  cases s with
  | positive => rw [withSign, isMinus, if_neg Bool.false_ne_true]; rfl
  | negative => rw [withSign, isMinus, if_pos rfl, ← neg_mul]; push_cast [Sign.apply]; rfl

/-- The sum of finite parts, over their lesser exponent. -/
theorem place?_pack_add_finite (s t : Sign) {m n : ℕ} {e f : ℤ} (hm : 0 < m) (hn : 0 < n) :
    place? (Binary64.pack (UnpackedFloat.add .binary64 (.finite s m e hm) (.finite t n f hn))) =
      some (.round (withSign (isMinus s) (m * 2 ^ e) + withSign (isMinus t) (n * 2 ^ f))) := by
  have hadd : UnpackedFloat.add .binary64 (.finite s m e hm) (.finite t n f hn) =
      UnpackedFloat.normalize .binary64 (s.apply (decreaseExponent m e (min e f)).1 +
        t.apply (decreaseExponent n f (min e f)).1) (min e f) .positive := rfl
  rw [hadd, place?_pack_normalize, Int.cast_add, add_mul, ← withSign_parts, ← withSign_parts,
    decreaseExponent_value (min_le_left e f), decreaseExponent_value (min_le_right e f)]

/-- Where parts are. -/
def partsPlace? (f : UnpackedFloat) : Option Place := (Binary64.ofUnpacked f).exact.place?

theorem place?_eq_partsPlace? (x : Float) : place? x = partsPlace? x.toModel.unpack := by
  rw [place?, partsPlace?, exact_eq_exact_ofUnpacked]

namespace IsNumber

variable {f g : UnpackedFloat}

/-- Parts that are put together are where they were, once they are rounded. -/
theorem place?_pack (h : IsNumber f) :
    place? (Binary64.pack f) = (partsPlace? f).map (Place.shift 0) := by
  cases h with
  | infinity s =>
    rw [place?, exact_infinity, partsPlace?, Binary64.ofUnpacked_infinity]
    cases isMinus s <;> rfl
  | zero s =>
    rw [place?, exact_zero, Exact.place?_rounded le_rfl, partsPlace?, Binary64.place?_zero,
      withSign_zero, Option.map_some, Place.shift_of, zero_add]
  | finite s hm h =>
    rw [place?, exact_pack_finite s hm h, Exact.place?_rounded (parts_pos hm _).le, partsPlace?,
      Binary64.place?_finite, Option.map_some, Place.shift_of, zero_add]

/-- **A sum is the other term, shifted by the first,** if that is finite. -/
theorem place?_pack_add (hf : IsNumber f) (hg : IsNumber g) (hv : partsPlace? f = some (.of v)) :
    place? (Binary64.pack (UnpackedFloat.add .binary64 f g)) =
      (partsPlace? g).map (Place.shift v) := by
  cases hf with
  | infinity s =>
    rw [partsPlace?, Binary64.ofUnpacked_infinity] at hv
    cases s <;> cases hv
  | zero s =>
    rw [partsPlace?, Binary64.place?_zero, Option.some.injEq] at hv
    obtain rfl := Place.of_injective hv
    cases hg with
    | infinity t => exact (infinity t).place?_pack
    | zero t =>
      have hsum : ∃ r, UnpackedFloat.add .binary64 (.zero s) (.zero t) = .zero r := by
        rw [UnpackedFloat.add]
        split_ifs <;> exact ⟨_, rfl⟩
      obtain ⟨r, hr⟩ := hsum
      rw [hr, (zero r).place?_pack, partsPlace?, partsPlace?, Binary64.place?_zero,
        Binary64.place?_zero]
    | finite t hn h => exact (finite t hn h).place?_pack
  | finite s hm h =>
    rw [partsPlace?, Binary64.place?_finite, Option.some.injEq] at hv
    obtain rfl := Place.of_injective hv
    cases hg with
    | infinity t =>
      rw [partsPlace?, Binary64.ofUnpacked_infinity]
      show place? (Binary64.pack (.infinity t)) = _
      rw [place?, exact_infinity]
      cases t <;> rfl
    | zero t =>
      show place? (Binary64.pack (.finite s _ _ hm)) = _
      rw [(finite s hm h).place?_pack, partsPlace?, partsPlace?, Binary64.place?_finite,
        Binary64.place?_zero, Option.map_some, Option.map_some, Place.shift_of, Place.shift_of,
        zero_add, add_zero]
    | finite t hn h' =>
      rw [place?_pack_add_finite, partsPlace?, Binary64.place?_finite, Option.map_some,
        Place.shift_of]

/-- The parts of the opposite are on the other side. -/
theorem partsPlace?_neg (h : IsNumber f) : partsPlace? f.neg = (partsPlace? f).map Place.neg := by
  cases h with
  | infinity s => cases s <;> rfl
  | zero s =>
    show partsPlace? (.zero (-s)) = _
    rw [partsPlace?, partsPlace?, Binary64.place?_zero, Binary64.place?_zero, Option.map_some,
      Place.neg_of, neg_zero]
  | finite s hm _ =>
    show partsPlace? (.finite (-s) _ _ hm) = _
    rw [partsPlace?, partsPlace?, Binary64.place?_finite, Binary64.place?_finite, Option.map_some,
      Place.neg_of, withSign_parts, withSign_parts, sign_neg_apply, Int.cast_neg, neg_mul]

end IsNumber

theorem unpacked_add_comm (f g : UnpackedFloat) :
    UnpackedFloat.add .binary64 f g = UnpackedFloat.add .binary64 g f := by
  cases f with
  | infinity s =>
    cases g with
    | infinity t => cases s <;> cases t <;> rfl
    | _ => rfl
  | zero s =>
    cases g with
    | zero t => cases s <;> cases t <;> rfl
    | _ => rfl
  | finite s m e hm =>
    cases g with
    | finite t n f hn => simp only [UnpackedFloat.add, min_comm f e, add_comm (t.apply _)]
    | _ => rfl
  | notANumber => cases g <;> rfl

protected theorem add_comm (x y : Float) : x + y = y + x := by
  have hadd (x y : Float) : x + y =
      Binary64.pack (UnpackedFloat.add .binary64 x.toModel.unpack y.toModel.unpack) := rfl
  rw [hadd, hadd, unpacked_add_comm]

/-! ### Values -/

theorem hasValue_iff : HasValue x v ↔ ∃ a u, exact x = .finite a u ∧ withSign a u = v := by
  rw [HasValue, place?]
  cases exact x with
  | nan => exact iff_of_false (by rintro ⟨⟩) (by rintro ⟨_, _, ⟨⟩, _⟩)
  | infinite a =>
    refine iff_of_false (fun h => ?_) (by rintro ⟨_, _, ⟨⟩, _⟩)
    cases a <;> cases h
  | finite a u =>
    constructor
    · intro h
      exact ⟨a, u, rfl, Place.of_injective (Option.some.inj h)⟩
    · rintro ⟨_, _, ⟨⟩, rfl⟩
      rfl

theorem exists_hasValue (h : isFinite x = true) : ∃ v, HasValue x v := by
  obtain ⟨a, u, hx⟩ := isFinite_iff.1 h
  exact ⟨_, hasValue_iff.2 ⟨a, u, hx, rfl⟩⟩

namespace HasValue

theorem isFinite (h : HasValue x v) : Scalar.isFinite x = true := by
  obtain ⟨a, u, hx, -⟩ := hasValue_iff.1 h
  exact isFinite_iff.2 ⟨a, u, hx⟩

theorem le_self (h : HasValue x v) : x ≤ x := le_self_of_isFinite h.isFinite

theorem unique (h : HasValue x v) (h' : HasValue x w) : v = w :=
  Place.of_injective (Option.some.inj (h.symm.trans h'))

theorem le_iff (hx : HasValue x v) (hy : HasValue y w) : x ≤ y ↔ v ≤ w := by
  rw [le_iff_place, hx, hy, ← Place.of_le_of]
  simp

theorem lt_iff (hx : HasValue x v) (hy : HasValue y w) : x < y ↔ v < w := by
  rw [lt_iff_place, hx, hy, ← Place.of_lt_of]
  simp

/-- A value is a double. -/
theorem round_eq (h : HasValue x v) : Place.round v = .of v := by
  obtain ⟨a, u, hx, rfl⟩ := hasValue_iff.1 h
  obtain ⟨hu, hdouble, hlt⟩ := isDouble_of_exact hx
  have hplace := Exact.place?_rounded (a := a) hu
  rw [rounded_of_isDouble hdouble hlt] at hplace
  exact (Option.some.inj hplace).symm

end HasValue

/-! ### Operations -/

/-- **A sum is where the first term shifts the second,** which may be an infinity. -/
theorem place?_add (hx : HasValue x v) (hy : y ≤ y) :
    place? (x + y) = (place? y).map (Place.shift v) := by
  have hnumber := IsNumber.of_le_self hx.le_self
  rw [HasValue, place?_eq_partsPlace?] at hx
  rw [place?_eq_partsPlace? y]
  exact hnumber.place?_pack_add (.of_le_self hy) hx

/-- So is a difference, with the second on the other side. -/
theorem place?_sub (hx : HasValue x v) (hy : y ≤ y) :
    place? (x - y) = (place? y).map fun p => Place.shift v p.neg := by
  have hsub : x - y =
      Binary64.pack (UnpackedFloat.sub .binary64 x.toModel.unpack y.toModel.unpack) := rfl
  have hleft := IsNumber.of_le_self hx.le_self
  have hright := IsNumber.of_le_self hy
  rw [HasValue, place?_eq_partsPlace?] at hx
  rw [hsub, unpacked_sub_eq_add_neg, hleft.place?_pack_add hright.neg hx, hright.partsPlace?_neg,
    place?_eq_partsPlace? y, Option.map_map]
  rfl

namespace HasValue

theorem place?_add (hx : HasValue x v) (hy : HasValue y w) :
    place? (x + y) = some (.round (v + w)) := by
  rw [Scalar.place?_add hx hy.le_self, hy, Option.map_some, Place.shift_of]

theorem place?_sub (hx : HasValue x v) (hy : HasValue y w) :
    place? (x - y) = some (.round (v - w)) := by
  rw [Scalar.place?_sub hx hy.le_self, hy, Option.map_some, Place.neg_of, Place.shift_of,
    sub_eq_add_neg]

theorem place?_mul (hx : HasValue x v) (hy : HasValue y w) :
    place? (x * y) = some (.round (v * w)) := by
  obtain ⟨a, u, hx', rfl⟩ := hasValue_iff.1 hx
  obtain ⟨b, t, hy', rfl⟩ := hasValue_iff.1 hy
  have hsign : withSign (a ^^ b) (u * t) = withSign a u * withSign b t := by
    cases a <;> cases b <;> simp [withSign]
  rw [place?, exact_mul hx' hy', Exact.place?_rounded, hsign]
  exact mul_nonneg (isDouble_of_exact hx').1 (isDouble_of_exact hy').1

theorem place?_div (hx : HasValue x v) (hy : HasValue y w) (hw : w ≠ 0) :
    place? (x / y) = some (.round (v / w)) := by
  obtain ⟨a, u, hx', rfl⟩ := hasValue_iff.1 hx
  obtain ⟨b, t, hy', rfl⟩ := hasValue_iff.1 hy
  have ht : t ≠ 0 := by
    rintro rfl
    exact hw (withSign_zero b)
  have hsign : withSign (a ^^ b) (u / t) = withSign a u / withSign b t := by
    cases a <;> cases b <;> simp [withSign, neg_div, div_neg]
  rw [place?, exact_div hx' hy' ht, Exact.place?_rounded, hsign]
  exact div_nonneg (isDouble_of_exact hx').1 (isDouble_of_exact hy').1

/-- **Dropping the fraction is exact.** -/
theorem trunc (hx : HasValue x v) : HasValue (trunc x) (Scalar.trunc v) := by
  obtain ⟨a, u, hx', rfl⟩ := hasValue_iff.1 hx
  refine hasValue_iff.2 ⟨a, _, exact_trunc hx', ?_⟩
  have hu := (isDouble_of_exact hx').1
  rw [trunc_rat, withSign, withSign]
  cases a with
  | false =>
    rw [if_neg Bool.false_ne_true, if_neg Bool.false_ne_true, if_neg (not_lt.2 hu)]
  | true =>
    rw [if_pos rfl, if_pos rfl, neg_neg]
    split_ifs with hneg
    · rfl
    · obtain rfl : u = 0 := le_antisymm (by linarith) hu
      simp

end HasValue

/-- **Sums are monotone,** if only what was summed up before may be infinite. -/
theorem add_le_add {x x' y y' : Float} (h : x ≤ x') (h' : y ≤ y') (hy : isFinite y = true)
    (hy' : isFinite y' = true) : x + y ≤ x' + y' := by
  obtain ⟨v, hv⟩ := exists_hasValue hy
  obtain ⟨w, hw⟩ := exists_hasValue hy'
  obtain ⟨p, hp, q, hq, hpq⟩ := le_iff_place.1 h
  rw [Scalar.add_comm x, Scalar.add_comm x', le_iff_place, place?_add hv (le_self_left h),
    place?_add hw (le_self_right h)]
  exact ⟨_, Option.mem_map_of_mem _ hp, _, Option.mem_map_of_mem _ hq,
    Place.shift_le_shift ((hv.le_iff hw).1 h') hpq⟩

end Scalar

/-! ### Whole numbers -/

theorem nearest_natCast_mem (n : ℕ) : nearest n ∈ wholeNumbers := by
  rcases lt_or_ge n (2 ^ 53) with hn | hn
  · rw [(Scalar.isDouble_natCast hn).nearest_eq]
    exact intCast_mem_wholeNumbers n
  · have hlarge : (2 ^ 52 * 2 ^ (0 : ℤ) : ℚ) ≤ n := by
      rw [zpow_zero, mul_one]
      exact_mod_cast (Nat.pow_le_pow_right (by decide) (by decide)).trans hn
    obtain ⟨k, hk⟩ := Int.eq_ofNat_of_zero_le (le_ulpExponent_of_le hlarge)
    rw [nearest, hk]
    exact mul_mem (intCast_mem_wholeNumbers _) ⟨2 ^ k, by simp⟩

namespace Place

/-- A finite place is that of the nearest double. -/
theorem abs_of_round {v w : ℚ} (h : round v = .of w) : |w| = nearest |v| := by
  rw [round] at h
  split_ifs at h with hv hlt hlt
  · rw [← of_injective h, abs_of_nonneg hv, abs_of_nonneg (nearest_nonneg v)]
  · cases h
  · rw [← of_injective h, abs_of_neg (not_le.1 hv), abs_neg, abs_of_nonneg (nearest_nonneg _)]
  · cases h

/-- **Rounding leaves whole numbers whole.** -/
theorem mem_wholeNumbers_of_round {v w : ℚ} (hv : v ∈ wholeNumbers) (h : round v = .of w) :
    w ∈ wholeNumbers := by
  obtain ⟨n, rfl⟩ := mem_wholeNumbers.1 hv
  have habs : |w| ∈ wholeNumbers := by
    rw [abs_of_round h, ← Int.cast_abs, Int.abs_eq_natAbs, Int.cast_natCast]
    exact nearest_natCast_mem _
  rcases abs_choice w with hw | hw
  · rwa [hw] at habs
  · rwa [hw, neg_mem_iff] at habs

/-- A whole number, or an infinity. -/
def IsWhole (p : Place) : Prop := ∀ v, p = .of v → v ∈ wholeNumbers

theorem isWhole_round {v : ℚ} (hv : v ∈ wholeNumbers) : (round v).IsWhole :=
  fun _ h => mem_wholeNumbers_of_round hv h

theorem IsWhole.shift {v : ℚ} (hv : v ∈ wholeNumbers) : ∀ {p : Place}, p.IsWhole →
    (Place.shift v p).IsWhole
  | none, _ => by rintro _ ⟨⟩
  | some none, _ => by rintro _ ⟨⟩
  | some (some w), h => isWhole_round (add_mem hv (h w rfl))

theorem IsWhole.neg : ∀ {p : Place}, p.IsWhole → (Place.neg p).IsWhole
  | none, _ => by rintro _ ⟨⟩
  | some none, _ => by rintro _ ⟨⟩
  | some (some w), h => by
    intro v hv
    rw [← of_injective hv]
    exact neg_mem (h w rfl)

/-- What is not beyond a double is finite. -/
theorem exists_round_eq {v d : ℚ} (hd : IsDouble d) (hlt : d < doubleLimit) (h : |v| ≤ d) :
    ∃ w, round v = .of w := by
  have hnearest : nearest |v| < doubleLimit := by
    rcases (abs_nonneg v).eq_or_lt with hzero | hpos
    · rw [← hzero, nearest_zero]
      exact doubleLimit_pos
    · exact (hd.nearest_le hpos h).trans_lt hlt
  rw [round]
  by_cases hv : 0 ≤ v
  · rw [abs_of_nonneg hv] at hnearest
    exact ⟨_, by rw [if_pos hv, if_pos hnearest]⟩
  · rw [abs_of_neg (not_le.1 hv)] at hnearest
    exact ⟨_, by rw [if_neg hv, if_pos hnearest]⟩

/-- A double is where it was. -/
theorem round_eq {v : ℚ} (hv : IsDouble |v|) (hlt : |v| < doubleLimit) : round v = .of v := by
  rw [round]
  by_cases hnonneg : 0 ≤ v
  · rw [abs_of_nonneg hnonneg] at hv hlt
    rw [if_pos hnonneg, hv.nearest_eq, if_pos hlt]
  · rw [abs_of_neg (not_le.1 hnonneg)] at hv hlt
    rw [if_neg hnonneg, hv.nearest_eq, if_pos hlt, neg_neg]

/-- An integer is exact if it is not too large. -/
theorem round_intCast {n : ℤ} (hn : |n| < 2 ^ 53) : round n = .of n := by
  have hnat : |(n : ℚ)| = n.natAbs := by
    rw [← Int.cast_abs, Int.abs_eq_natAbs, Int.cast_natCast]
  have hlt : n.natAbs < 2 ^ 53 := by
    rw [Int.abs_eq_natAbs] at hn
    exact_mod_cast hn
  refine round_eq ?_ ?_
  · rw [hnat]
    exact Scalar.isDouble_natCast hlt
  · rw [hnat]
    exact Scalar.natCast_lt_doubleLimit hlt

end Place

namespace Scalar

variable {x y : Float} {v w : ℚ}

@[inherit_doc Place.round_intCast]
theorem hasValue_ofInt {n : ℤ} (hn : |n| < 2 ^ 53) : HasValue (ofInt n) n := by
  rw [HasValue, place?_ofInt, Place.round_intCast hn]

theorem hasValue_zero : HasValue (ofInt 0) 0 := by
  have hzero := hasValue_ofInt (n := 0) (by norm_num)
  rwa [Int.cast_zero] at hzero

theorem hasValue_one : HasValue (ofInt 1) 1 := by
  have hone := hasValue_ofInt (n := 1) (by norm_num)
  rwa [Int.cast_one] at hone

theorem isFinite_ofInt {n : ℤ} (hn : |n| ≤ 2 ^ 63) : isFinite (ofInt n : Float) = true := by
  have hdouble : IsDouble (2 ^ 63) := ⟨1, 63, by norm_num, by norm_num, by norm_num⟩
  have hlt : (2 ^ 63 : ℚ) < doubleLimit := by
    rw [doubleLimit]
    exact_mod_cast two_zpow_lt_iff.2 (by norm_num : (63 : ℤ) < 1024)
  have habs : |(n : ℚ)| ≤ 2 ^ 63 := by exact_mod_cast hn
  obtain ⟨w, hw⟩ := Place.exists_round_eq hdouble hlt habs
  have hvalue : HasValue (ofInt n) w := by rw [HasValue, place?_ofInt, hw]
  exact hvalue.isFinite

/-- A double without a fraction, or one that is not finite. -/
def IsWhole (x : Float) : Prop := ∀ v, HasValue x v → v ∈ wholeNumbers

theorem isWhole_of_place {p : Place} (hp : p.IsWhole) (h : place? x = some p) : IsWhole x :=
  fun v hv => hp v (Option.some.inj (h.symm.trans hv))

theorem isWhole_ofInt (n : ℤ) : IsWhole (ofInt n) :=
  isWhole_of_place (Place.isWhole_round (intCast_mem_wholeNumbers n)) (place?_ofInt n)

/-- A sum of whole numbers is whole, if the second is finite. -/
theorem IsWhole.add (hx : IsWhole x) (hnumber : x ≤ x) (hy : HasValue y w)
    (hw : w ∈ wholeNumbers) : IsWhole (x + y) := by
  obtain ⟨p, hp⟩ := Option.isSome_iff_exists.1 (le_self_iff.1 hnumber)
  refine isWhole_of_place (p := Place.shift w p) (Place.IsWhole.shift hw fun u hu => hx u ?_) ?_
  · rw [HasValue, hp, hu]
  · rw [Scalar.add_comm, place?_add hy hnumber, hp, Option.map_some]

/-- A value without a fraction is whole. -/
theorem isWhole_of_isWhole (h : isWhole x = true) : IsWhole x := by
  intro v hv
  obtain ⟨a, u, hx, rfl⟩ := hasValue_iff.1 hv
  have hu : u ∈ wholeNumbers := ⟨⌊u⌋, (eq_floor_of_isWhole hx h).symm⟩
  cases a with
  | false => exact hu
  | true => exact neg_mem hu

end Scalar
end DiceFormula
