/-
# Rounding keeps the order

The double nearest to a fraction is not below that of a lesser fraction (`nearest_mono`), so
rounding, with infinities for what is too large, is a monotone map to the line of all numbers
(`Place.round_mono`).  Whole numbers and products with a positive double keep their order.

| result | is a number if `x` and `y` are numbers, and |
| --- | --- |
| `x + y`, `x - y` | one of them is finite |
| `x * y` | both are finite, or neither is zero |
| `x / y` | one of them is finite, and `y` is not zero |

The others are `∞ - ∞`, `0 * ∞`, `∞ / ∞` and `0 / 0`, up to signs, and what is passed over here:
sums of two infinities with the same sign, and quotients by zero.
-/

import DiceFormula.Proofs.Number.Order

namespace DiceFormula

open Float.Model Float.Model.UnpackedFloat

/-! ### Fractions -/

theorem roundHalfEven_mono {v w : ℚ} (hv : 0 ≤ v) (h : v ≤ w) :
    roundHalfEven v ≤ roundHalfEven w := by
  by_contra hlt
  have hstep : (roundHalfEven w : ℚ) + 1 ≤ roundHalfEven v := by exact_mod_cast not_le.1 hlt
  have hlow := abs_le.1 (roundHalfEven_spec hv).1
  have hhigh := abs_le.1 (roundHalfEven_spec (hv.trans h)).1
  -- Both fractions are halfway between the two integers, and so the same.
  have hsame : v = w := by linarith
  exact hlt (hsame ▸ le_refl _)

theorem ulpExponent_mono {v w : ℚ} (hv : 0 < v) (h : v ≤ w) : ulpExponent v ≤ ulpExponent w :=
  max_le_max_right _ (Int.sub_le_sub_right (Int.log_mono_right hv h) 52)

/-- **Rounding keeps the order.** -/
theorem nearest_mono {v w : ℚ} (hv : 0 ≤ v) (h : v ≤ w) : nearest v ≤ nearest w := by
  rcases hv.eq_or_lt with rfl | hv
  · rw [nearest_zero]
    exact nearest_nonneg w
  · have hpos := two_zpow_pos (ulpExponent w)
    rcases (ulpExponent_mono hv h).eq_or_lt with hsame | hlt
    · rw [nearest, nearest, hsame]
      refine mul_le_mul_of_nonneg_right ?_ hpos.le
      exact_mod_cast roundHalfEven_mono (div_ulp_nonneg hv.le _)
        (div_le_div_of_nonneg_right h hpos.le)
    · -- There is a power of two in between, which is on both grids.
      have hfew : (roundHalfEven (v / 2 ^ ulpExponent v) : ℚ) ≤ 2 ^ 53 := by
        exact_mod_cast roundHalfEven_ulp_le hv
      have hlarge := le_of_le_ulpExponent (hv.trans_le h)
        ((le_ulpExponent v).trans_lt hlt) le_rfl
      have hmany : 2 ^ 52 ≤ roundHalfEven (w / 2 ^ ulpExponent w) := by
        refine le_roundHalfEven ?_
        rw [le_div_iff₀ hpos]
        exact_mod_cast hlarge
      calc nearest v ≤ 2 ^ 53 * 2 ^ ulpExponent v :=
            mul_le_mul_of_nonneg_right hfew (two_zpow_pos _).le
        _ = 2 ^ 52 * 2 ^ (1 + ulpExponent v) := by rw [two_zpow_add]; ring
        _ ≤ 2 ^ 52 * 2 ^ ulpExponent w :=
            mul_le_mul_of_nonneg_left (two_zpow_le_iff.2 (by omega)) (by norm_num)
        _ ≤ nearest w := mul_le_mul_of_nonneg_right (by exact_mod_cast hmany) hpos.le

/-! ### The line -/

namespace Place

/-- Where a fraction is once it is rounded. -/
def round (v : ℚ) : Place :=
  if 0 ≤ v then if nearest v < doubleLimit then .of (nearest v) else ⊤
  else if nearest (-v) < doubleLimit then .of (-nearest (-v)) else ⊥

theorem round_nonneg {v : ℚ} (hv : 0 ≤ v) : Place.of 0 ≤ round v := by
  rw [round, if_pos hv]
  split_ifs
  · exact of_le_of.2 (nearest_nonneg v)
  · exact le_top

theorem round_nonpos {v : ℚ} (hv : ¬ 0 ≤ v) : round v ≤ Place.of 0 := by
  rw [round, if_neg hv]
  split_ifs
  · exact of_le_of.2 (neg_nonpos.2 (nearest_nonneg (-v)))
  · exact bot_le

/-- **Rounding is monotone.** -/
theorem round_mono {v w : ℚ} (h : v ≤ w) : round v ≤ round w := by
  by_cases hv : 0 ≤ v
  · have hle := nearest_mono hv h
    rw [round, round, if_pos hv, if_pos (hv.trans h)]
    by_cases hw : nearest w < doubleLimit
    · rw [if_pos hw, if_pos (hle.trans_lt hw)]
      exact of_le_of.2 hle
    · rw [if_neg hw]
      exact le_top
  · by_cases hw : 0 ≤ w
    · exact (round_nonpos hv).trans (round_nonneg hw)
    · have hle := nearest_mono (by linarith) (neg_le_neg h)
      rw [round, round, if_neg hv, if_neg hw]
      by_cases hv' : nearest (-v) < doubleLimit
      · rw [if_pos hv', if_pos (hle.trans_lt hv')]
        exact of_le_of.2 (neg_le_neg hle)
      · rw [if_neg hv']
        exact bot_le

/-- Where a product is, with a factor `k` and another that is at this point. -/
def scale (k : ℚ) : Place → Place
  | none => ⊥
  | some none => ⊤
  | some (some v) => round (k * v)

theorem scale_mono {k : ℚ} (hk : 0 ≤ k) : ∀ {p q : Place}, p ≤ q → scale k p ≤ scale k q
  | none, _, _ => bot_le
  | _, some none, _ => le_top
  | some none, none, h => absurd (le_bot_iff.1 h) (by rintro ⟨⟩)
  | some (some v), none, h => absurd (le_bot_iff.1 h) (by rintro ⟨⟩)
  | some none, some (some w), h => absurd (top_le_iff.1 (WithBot.coe_le_coe.1 h)) (by rintro ⟨⟩)
  | some (some v), some (some w), h =>
    round_mono (mul_le_mul_of_nonneg_left (of_le_of.1 h) hk)

end Place

theorem withSign_zero (a : Bool) : withSign a 0 = 0 := by cases a <;> simp [withSign]

theorem Exact.place?_rounded {a : Bool} {u : ℚ} (hu : 0 ≤ u) :
    (Exact.rounded a u).place? = some (.round (withSign a u)) := by
  rcases hu.eq_or_lt with rfl | hpos
  · rw [Scalar.rounded_zero, place?, withSign_zero, Place.round, if_pos le_rfl, nearest_zero,
      if_pos doubleLimit_pos]
  · cases a with
    | false =>
      rw [Exact.rounded, Place.round, withSign, if_neg Bool.false_ne_true, if_pos hu]
      split_ifs <;> rfl
    | true =>
      rw [Place.round, withSign, if_pos rfl, if_neg (not_le.2 (neg_neg_of_pos hpos)), neg_neg,
        Exact.rounded]
      split_ifs <;> rfl

namespace Scalar

variable {x y c : Float} {a b : Bool} {u w k : ℚ}

/-! ### Infinities -/

theorem exact_infinity (s : Sign) :
    exact (Binary64.pack (.infinity s)) = .infinite (isMinus s) :=
  congrArg Binary64.exact (Binary64.ofFloat_pack_infinity s)

theorem exists_unpack_infinite (h : exact x = .infinite a) :
    ∃ s, isMinus s = a ∧ x.toModel.unpack = .infinity s := by
  rw [exact_eq_exact_ofUnpacked] at h
  cases hx : x.toModel.unpack with
  | infinity s =>
    rw [hx] at h
    cases h
    exact ⟨s, rfl, rfl⟩
  | notANumber => rw [hx] at h; cases h
  | zero s => rw [hx] at h; cases h
  | finite s m e hm => rw [hx] at h; cases h

/-- A number is finite or an infinity. -/
theorem exact_of_le_self (h : x ≤ x) :
    (∃ a u, exact x = .finite a u) ∨ ∃ a, exact x = .infinite a := by
  cases hx : exact x with
  | nan => exact absurd hx (le_self_iff_exact_ne_nan.1 h)
  | infinite a => exact .inr ⟨a, rfl⟩
  | finite a u => exact .inl ⟨a, u, rfl⟩

theorem le_self_of_infinite (h : exact x = .infinite a) : x ≤ x := by
  rw [le_self_iff, place?, h]
  rfl

theorem le_self_of_rounded (hu : 0 ≤ u) (h : exact x = .rounded a u) : x ≤ x := by
  rw [le_self_iff, place?, h, Exact.place?_rounded hu]
  rfl

theorem exact_mul_infinite (hx : exact x = .finite a u) (hu : u ≠ 0) (hy : exact y = .infinite b) :
    exact (x * y) = .infinite (a ^^ b) := by
  have hmul : x * y =
      Binary64.pack (UnpackedFloat.mul .binary64 x.toModel.unpack y.toModel.unpack) := rfl
  obtain ⟨t, rfl, hy'⟩ := exists_unpack_infinite hy
  obtain ⟨s, rfl, ⟨rfl, -⟩ | ⟨m, e, hm, hx', -⟩⟩ := exists_unpack hx
  · exact absurd rfl hu
  · rw [hmul, hx', hy', ← isMinus_mul]
    exact exact_infinity (s * t)

/-! ### Monotone operations -/

theorem place?_mul (hc : exact c = .finite false k) (hk : 0 < k) (hx : x ≤ x) :
    place? (c * x) = (place? x).map (Place.scale k) := by
  rcases exact_of_le_self hx with ⟨a, u, hx⟩ | ⟨a, hx⟩
  · have hsign : withSign a (k * u) = k * withSign a u := by
      rw [withSign, withSign, mul_ite, mul_neg]
    rw [place?, place?, hx, exact_mul hc hx, Bool.false_xor,
      Exact.place?_rounded (mul_nonneg hk.le (isDouble_of_exact hx).1), hsign]
    rfl
  · rw [place?, place?, hx, exact_mul_infinite hc hk.ne' hx, Bool.false_xor]
    cases a <;> rfl

/-- **Products with a positive double keep the order.** -/
theorem mul_le_mul_of_pos (hc : exact c = .finite false k) (hk : 0 < k) (h : x ≤ y) :
    c * x ≤ c * y := by
  obtain ⟨p, hp, q, hq, hpq⟩ := le_iff_place.1 h
  refine le_iff_place.2 ⟨_, ?_, _, ?_, Place.scale_mono hk.le hpq⟩
  · rw [place?_mul hc hk (le_self_left h)]
    exact Option.mem_map_of_mem _ hp
  · rw [place?_mul hc hk (le_self_right h)]
    exact Option.mem_map_of_mem _ hq

theorem exact_neg_infinite (hx : exact x = .infinite a) : exact (-x) = .infinite (!a) := by
  have hneg : -x = Binary64.pack x.toModel.unpack.neg := rfl
  obtain ⟨s, rfl, hx'⟩ := exists_unpack_infinite hx
  rw [hneg, hx', ← isMinus_neg]
  exact exact_infinity (-s)

theorem exact_neg_rounded (hx : exact x = .rounded a u) : exact (-x) = .rounded (!a) u := by
  rw [Exact.rounded] at hx ⊢
  split_ifs at hx ⊢
  · exact exact_neg hx
  · exact exact_neg_infinite hx

theorem place?_ofInt (n : ℤ) : place? (ofInt n : Float) = some (.round n) := by
  cases n with
  | ofNat k =>
    have hplace := Exact.place?_rounded (a := false) (Nat.cast_nonneg (α := ℚ) k)
    rw [← exact_ofNat, withSign, if_neg Bool.false_ne_true] at hplace
    exact hplace
  | negSucc k =>
    have hplace := Exact.place?_rounded (a := true) (Nat.cast_nonneg (α := ℚ) (k + 1))
    have hneg := exact_neg_rounded (exact_ofNat (k + 1))
    rw [Bool.not_false] at hneg
    rw [← hneg, withSign, if_pos rfl] at hplace
    rw [Int.cast_negSucc]
    exact hplace

/-- **Whole numbers keep their order.** -/
theorem ofInt_le_ofInt {m n : ℤ} (h : m ≤ n) : (ofInt m : Float) ≤ ofInt n :=
  le_iff_place.2 ⟨_, place?_ofInt m, _, place?_ofInt n, Place.round_mono (Int.cast_le.2 h)⟩

/-! ### Numbers -/

/-- The parts of a number: those of an infinity, of a zero, or canonical ones. -/
inductive IsNumber : UnpackedFloat → Prop
  | infinity (s : Sign) : IsNumber (.infinity s)
  | zero (s : Sign) : IsNumber (.zero s)
  | finite (s : Sign) {m : ℕ} {e : ℤ} (hm : 0 < m) (h : IsCanonical m e) : IsNumber (.finite s m e hm)

namespace IsNumber

variable {f g : UnpackedFloat}

theorem le_self_pack (h : IsNumber f) : Binary64.pack f ≤ Binary64.pack f := by
  cases h with
  | infinity s => exact le_self_of_infinite (exact_infinity s)
  | zero s => exact le_self_of_rounded le_rfl (exact_zero s)
  | finite s hm h => exact le_self_of_rounded (parts_pos hm _).le (exact_pack_finite s hm h)

theorem of_le_self (h : x ≤ x) : IsNumber x.toModel.unpack := by
  rcases exact_of_le_self h with ⟨a, u, hx⟩ | ⟨a, hx⟩
  · obtain ⟨s, -, ⟨-, hx⟩ | ⟨m, e, hm, hx, hcanonical, -⟩⟩ := exists_unpack hx
    · exact hx ▸ .zero s
    · exact hx ▸ .finite s hm hcanonical
  · obtain ⟨s, -, hx⟩ := exists_unpack_infinite hx
    exact hx ▸ .infinity s

theorem neg (h : IsNumber f) : IsNumber f.neg := by
  cases h with
  | infinity s => exact .infinity (-s)
  | zero s => exact .zero (-s)
  | finite s hm h => exact .finite (-s) hm h

/-- Two infinities may have no sum. -/
theorem le_self_pack_add (hf : IsNumber f) (hg : IsNumber g)
    (h : (∀ s, f ≠ .infinity s) ∨ ∀ s, g ≠ .infinity s) :
    Binary64.pack (UnpackedFloat.add .binary64 f g) ≤
      Binary64.pack (UnpackedFloat.add .binary64 f g) := by
  cases hf with
  | infinity s =>
    cases hg with
    | infinity t => exact h.elim (fun h => absurd rfl (h s)) fun h => absurd rfl (h t)
    | zero t => exact (infinity s).le_self_pack
    | finite t hn ht => exact (infinity s).le_self_pack
  | zero s =>
    cases hg with
    | infinity t => exact (infinity t).le_self_pack
    | zero t =>
      rw [UnpackedFloat.add]
      split_ifs <;> exact (zero _).le_self_pack
    | finite t hn ht => exact (finite t hn ht).le_self_pack
  | finite s hm hs =>
    cases hg with
    | infinity t => exact (infinity t).le_self_pack
    | zero t => exact (finite s hm hs).le_self_pack
    | finite t hn ht =>
      obtain ⟨b, hb⟩ := exists_exact_pack_normalize _ _
      exact le_self_of_rounded (mul_nonneg (abs_nonneg _) (two_zpow_pos _).le) hb

/-- An infinity and zero have no product. -/
theorem le_self_pack_mul (hf : IsNumber f) (hg : IsNumber g)
    (h : ((∀ s, f ≠ .infinity s) ∧ ∀ s, g ≠ .infinity s) ∨
      (∀ s, f ≠ .zero s) ∧ ∀ s, g ≠ .zero s) :
    Binary64.pack (UnpackedFloat.mul .binary64 f g) ≤
      Binary64.pack (UnpackedFloat.mul .binary64 f g) := by
  cases hf with
  | infinity s =>
    cases hg with
    | infinity t => exact (infinity (s * t)).le_self_pack
    | zero t => exact h.elim (fun h => absurd rfl (h.1 s)) fun h => absurd rfl (h.2 t)
    | finite t hn ht => exact (infinity (s * t)).le_self_pack
  | zero s =>
    cases hg with
    | infinity t => exact h.elim (fun h => absurd rfl (h.2 t)) fun h => absurd rfl (h.1 s)
    | zero t => exact (zero (s * t)).le_self_pack
    | finite t hn ht => exact (zero (s * t)).le_self_pack
  | finite s hm hs =>
    cases hg with
    | infinity t => exact (infinity (s * t)).le_self_pack
    | zero t => exact (zero (s * t)).le_self_pack
    | finite t hn ht =>
      exact le_self_of_rounded (mul_pos (parts_pos hm _) (parts_pos hn _)).le
        (exact_mul_parts s t hm hn (add_le_ulpExponent hm hn hs ht))

/-- Two infinities have no quotient. -/
theorem le_self_pack_div (hf : IsNumber f) (hg : IsNumber g)
    (h : (∀ s, f ≠ .infinity s) ∨ ∀ s, g ≠ .infinity s) (hzero : ∀ s, g ≠ .zero s) :
    Binary64.pack (UnpackedFloat.div .binary64 f g) ≤
      Binary64.pack (UnpackedFloat.div .binary64 f g) := by
  cases hf with
  | infinity s =>
    cases hg with
    | infinity t => exact h.elim (fun h => absurd rfl (h s)) fun h => absurd rfl (h t)
    | zero t => exact absurd rfl (hzero t)
    | finite t hn ht => exact (infinity (s / t)).le_self_pack
  | zero s =>
    cases hg with
    | infinity t => exact (zero (s / t)).le_self_pack
    | zero t => exact absurd rfl (hzero t)
    | finite t hn ht => exact (zero (s / t)).le_self_pack
  | finite s hm hs =>
    cases hg with
    | infinity t => exact (zero (s / t)).le_self_pack
    | zero t => exact absurd rfl (hzero t)
    | finite t hn ht =>
      exact le_self_of_rounded (div_pos (parts_pos hm _) (parts_pos hn _)).le
        (exact_div_parts s t hm hn)

end IsNumber

theorem unpack_ne_infinity (hx : isFinite x = true) (s : Sign) :
    x.toModel.unpack ≠ .infinity s := by
  intro h
  obtain ⟨a, u, hx⟩ := isFinite_iff.1 hx
  obtain ⟨t, -, ⟨-, hx⟩ | ⟨m, e, hm, hx, -⟩⟩ := exists_unpack hx <;> cases hx.symm.trans h

theorem unpack_ne_zero (hx : ∀ b, exact x ≠ .finite b 0) (s : Sign) :
    x.toModel.unpack ≠ .zero s := by
  intro h
  refine hx (isMinus s) ?_
  rw [exact_eq_exact_ofUnpacked, h, Binary64.exact_ofUnpacked_zero]

theorem sign_neg_apply (s : Sign) (z : ℤ) : (-s).apply z = -s.apply z := by
  cases s with
  | positive => rfl
  | negative => exact (neg_neg z).symm

theorem unpacked_sub_eq_add_neg (f g : UnpackedFloat) :
    UnpackedFloat.sub .binary64 f g = UnpackedFloat.add .binary64 f g.neg := by
  cases f with
  | finite s m e hm =>
    cases g with
    | finite t n d hn =>
      simp only [UnpackedFloat.neg, UnpackedFloat.sub, UnpackedFloat.add, sign_neg_apply,
        sub_eq_add_neg]
    | _ => rfl
  | _ => cases g <;> rfl

/-- **Sums are numbers,** unless two infinities meet. -/
theorem le_self_add (hx : x ≤ x) (hy : y ≤ y) (h : isFinite x = true ∨ isFinite y = true) :
    x + y ≤ x + y :=
  (IsNumber.of_le_self hx).le_self_pack_add (.of_le_self hy)
    (h.imp unpack_ne_infinity unpack_ne_infinity)

/-- **So are differences.** -/
theorem le_self_sub (hx : x ≤ x) (hy : y ≤ y) (h : isFinite x = true ∨ isFinite y = true) :
    x - y ≤ x - y := by
  have hsub : x - y =
      Binary64.pack (UnpackedFloat.sub .binary64 x.toModel.unpack y.toModel.unpack) := rfl
  rw [hsub, unpacked_sub_eq_add_neg]
  refine (IsNumber.of_le_self hx).le_self_pack_add (IsNumber.of_le_self hy).neg
    (h.imp unpack_ne_infinity fun hy s hneg => ?_)
  have hne := unpack_ne_infinity hy
  cases hparts : y.toModel.unpack with
  | infinity t => exact hne t hparts
  | _ => rw [hparts] at hneg; cases hneg

/-- **Products are numbers,** unless an infinity meets zero. -/
theorem le_self_mul (hx : x ≤ x) (hy : y ≤ y) (h : (isFinite x = true ∧ isFinite y = true) ∨
    (∀ b, exact x ≠ .finite b 0) ∧ ∀ b, exact y ≠ .finite b 0) : x * y ≤ x * y :=
  (IsNumber.of_le_self hx).le_self_pack_mul (.of_le_self hy)
    (h.imp (And.imp unpack_ne_infinity unpack_ne_infinity) (And.imp unpack_ne_zero unpack_ne_zero))

/-- **Quotients are numbers,** unless two infinities meet, or the divisor is zero. -/
theorem le_self_div (hx : x ≤ x) (hy : y ≤ y) (h : isFinite x = true ∨ isFinite y = true)
    (hzero : ∀ b, exact y ≠ .finite b 0) : x / y ≤ x / y :=
  (IsNumber.of_le_self hx).le_self_pack_div (.of_le_self hy)
    (h.imp unpack_ne_infinity unpack_ne_infinity) (unpack_ne_zero hzero)

end Scalar
end DiceFormula
