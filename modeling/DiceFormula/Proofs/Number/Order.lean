/-
# The order of doubles

Doubles have places on a line: fractions, with an infinity at either end.  Both zeros have the
same place, and what is not a number has none.  Comparing doubles is comparing their places
(`Scalar.le_iff_place`, `Scalar.lt_iff_place`), so the numbers among the doubles are totally
ordered, and a comparison with anything else is false.

The parts of a finite double are canonical, and canonical parts with the larger exponent have
the larger value (`IsCanonical.compare_eq`).
-/

import DiceFormula.Proofs.Number.Arithmetic
import Mathlib.Order.Compare
import Mathlib.Order.WithBot

namespace DiceFormula

open Float.Model Float.Model.UnpackedFloat

/-- A point of the line of all numbers. -/
abbrev Place := WithBot (WithTop ℚ)

/-- The point of a fraction. -/
def Place.of (v : ℚ) : Place := ((v : WithTop ℚ) : WithBot (WithTop ℚ))

theorem Place.of_le_of {v w : ℚ} : Place.of v ≤ Place.of w ↔ v ≤ w := by
  rw [Place.of, Place.of, WithBot.coe_le_coe, WithTop.coe_le_coe]

theorem Place.of_lt_of {v w : ℚ} : Place.of v < Place.of w ↔ v < w := by
  rw [Place.of, Place.of, WithBot.coe_lt_coe, WithTop.coe_lt_coe]

/-- A fraction with its sign. -/
def withSign (negative : Bool) (u : ℚ) : ℚ := if negative then -u else u

/-- Where an exact value is. -/
def Exact.place? : Exact → Option Place
  | .nan => none
  | .infinite negative => some (if negative then ⊥ else ⊤)
  | .finite negative u => some (.of (withSign negative u))

/-! ### Parts -/

namespace IsCanonical

variable {m n : ℕ} {e f : ℤ}

/-- Canonical parts with a larger exponent have a larger value. -/
theorem lt_of_exponent_lt (h : IsCanonical m e) (h' : IsCanonical n f) (hef : e < f) :
    (m * 2 ^ e : ℚ) < n * 2 ^ f := by
  have hm : (m : ℚ) < 2 ^ 53 := by exact_mod_cast h.lt
  have hn : (2 ^ 52 : ℚ) ≤ n := by
    exact_mod_cast h'.normal.resolve_right (by have := h.le_exponent; omega)
  calc (m * 2 ^ e : ℚ) < 2 ^ 53 * 2 ^ e := mul_lt_mul_of_pos_right hm (two_zpow_pos e)
    _ = 2 ^ 52 * 2 ^ (1 + e) := by rw [two_zpow_add]; ring
    _ ≤ 2 ^ 52 * 2 ^ f := mul_le_mul_of_nonneg_left (two_zpow_le_iff.2 (by omega)) (by norm_num)
    _ ≤ n * 2 ^ f := mul_le_mul_of_nonneg_right hn (two_zpow_pos f).le

/-- **Canonical parts compare as their values,** the exponents first. -/
theorem compare_eq (h : IsCanonical m e) (h' : IsCanonical n f) :
    (compare e f).then (compare m n) = cmp (m * 2 ^ e : ℚ) (n * 2 ^ f) := by
  rcases lt_trichotomy e f with hef | rfl | hef
  · rw [compare_lt_iff_lt.2 hef, (cmp_eq_lt_iff _ _).2 (h.lt_of_exponent_lt h' hef)]
    rfl
  · have hpos := two_zpow_pos e
    rw [compare_eq_iff_eq.2 rfl, Ordering.then]
    rcases lt_trichotomy m n with hmn | rfl | hmn
    · rw [compare_lt_iff_lt.2 hmn, eq_comm, cmp_eq_lt_iff]
      exact mul_lt_mul_of_pos_right (Nat.cast_lt.2 hmn) hpos
    · rw [compare_eq_iff_eq.2 rfl, cmp_self_eq_eq]
    · rw [compare_gt_iff_gt.2 hmn, eq_comm, cmp_eq_gt_iff]
      exact mul_lt_mul_of_pos_right (Nat.cast_lt.2 hmn) hpos
  · rw [compare_gt_iff_gt.2 hef, (cmp_eq_gt_iff _ _).2 (h'.lt_of_exponent_lt h hef)]
    rfl

end IsCanonical

/-! ### Places of parts -/

namespace Binary64

theorem place?_zero (s : Sign) : (ofUnpacked (.zero s)).exact.place? = some (.of 0) := by
  rw [exact_ofUnpacked_zero, Exact.place?]
  cases isMinus s
  · rfl
  · rw [withSign, if_pos rfl, neg_zero]

theorem place?_finite (s : Sign) {m : ℕ} (e : ℤ) (hm : 0 < m) :
    (ofUnpacked (.finite s m e hm)).exact.place? =
      some (.of (withSign (isMinus s) (m * 2 ^ e))) := by
  rw [exact_ofUnpacked_finite, Exact.place?]

theorem cmp_of_of (v w : ℚ) : cmp (Place.of v) (Place.of w) = cmp v w :=
  StrictMono.cmp_map_eq (fun _ _ => Place.of_lt_of.2) v w

theorem cmp_neg_neg (v w : ℚ) : cmp (-v) (-w) = cmp w v :=
  StrictAnti.cmp_map_eq (fun _ _ => neg_lt_neg) v w

theorem cmp_of_lt {p q : Place} (h : p < q) : cmp p q = .lt := (cmp_eq_lt_iff p q).2 h

theorem cmp_of_gt {p q : Place} (h : q < p) : cmp p q = .gt := (cmp_eq_gt_iff p q).2 h

/-- **Canonical parts compare as their places.** -/
theorem compare_eq {f g : UnpackedFloat} (hf : ∀ s m e hm, f = .finite s m e hm → IsCanonical m e)
    (hg : ∀ s m e hm, g = .finite s m e hm → IsCanonical m e) :
    f.compare g = (ofUnpacked f).exact.place?.bind fun p =>
      (ofUnpacked g).exact.place?.map (cmp p) := by
  have hbot (v : ℚ) : (⊥ : Place) < .of v := WithBot.bot_lt_coe _
  have htop (v : ℚ) : Place.of v < ⊤ := WithBot.coe_lt_coe.2 (WithTop.coe_lt_top v)
  have hends : (⊥ : Place) < ⊤ := bot_lt_top
  cases f with
  | notANumber => rfl
  | infinity s =>
    cases g with
    | notANumber => rfl
    | infinity t =>
      cases s <;> cases t
      · exact congrArg some (cmp_self_eq_eq (⊥ : Place)).symm
      · exact congrArg some (cmp_of_lt hends).symm
      · exact congrArg some (cmp_of_gt hends).symm
      · exact congrArg some (cmp_self_eq_eq (⊤ : Place)).symm
    | zero t =>
      rw [place?_zero]
      cases s with
      | negative => exact congrArg some (cmp_of_lt (hbot 0)).symm
      | positive => exact congrArg some (cmp_of_gt (htop 0)).symm
    | finite t n e hn =>
      rw [place?_finite]
      cases s with
      | negative => exact congrArg some (cmp_of_lt (hbot _)).symm
      | positive => exact congrArg some (cmp_of_gt (htop _)).symm
  | zero s =>
    rw [place?_zero]
    cases g with
    | notANumber => rfl
    | infinity t =>
      cases t with
      | negative => exact congrArg some (cmp_of_gt (hbot 0)).symm
      | positive => exact congrArg some (cmp_of_lt (htop 0)).symm
    | zero t =>
      rw [place?_zero]
      exact congrArg some (cmp_self_eq_eq (Place.of 0)).symm
    | finite t n e hn =>
      rw [place?_finite]
      have hpos := Scalar.parts_pos hn e
      cases t with
      | negative => exact congrArg some (cmp_of_gt (Place.of_lt_of.2 (neg_neg_of_pos hpos))).symm
      | positive => exact congrArg some (cmp_of_lt (Place.of_lt_of.2 hpos)).symm
  | finite s m e hm =>
    rw [place?_finite]
    have hpos := Scalar.parts_pos hm e
    cases g with
    | notANumber => rfl
    | infinity t =>
      cases t with
      | negative => exact congrArg some (cmp_of_gt (hbot _)).symm
      | positive => exact congrArg some (cmp_of_lt (htop _)).symm
    | zero t =>
      rw [place?_zero]
      cases s with
      | negative => exact congrArg some (cmp_of_lt (Place.of_lt_of.2 (neg_neg_of_pos hpos))).symm
      | positive => exact congrArg some (cmp_of_gt (Place.of_lt_of.2 hpos)).symm
    | finite t n f hn =>
      rw [place?_finite]
      have hpos' := Scalar.parts_pos hn f
      have hparts := (hf s m e hm rfl).compare_eq (hg t n f hn rfl)
      cases s <;> cases t
      · refine congrArg some ?_
        show ((compare e f).then (compare m n)).swap = _
        rw [hparts, cmp_swap]
        exact ((cmp_of_of _ _).trans (cmp_neg_neg _ _)).symm
      · exact congrArg some
          (cmp_of_lt (Place.of_lt_of.2 ((neg_neg_of_pos hpos).trans hpos'))).symm
      · exact congrArg some
          (cmp_of_gt (Place.of_lt_of.2 ((neg_neg_of_pos hpos').trans hpos))).symm
      · exact congrArg some (hparts.trans (cmp_of_of _ _).symm)

end Binary64

namespace Scalar

variable {x y z : Float}

/-- Where a double is. -/
def place? (x : Float) : Option Place := (exact x).place?

theorem compare_unpack (x y : Float) : x.toModel.unpack.compare y.toModel.unpack =
    (place? x).bind fun p => (place? y).map (cmp p) := by
  have hcanonical (x : Float) (s m e hm) (h : x.toModel.unpack = .finite s m e hm) :
      IsCanonical m e := by
    have hparts := Binary64.ofFloat_eq x
    rw [h] at hparts
    exact (Binary64.isCanonical_of_ofFloat hparts).1
  rw [Binary64.compare_eq (hcanonical x) (hcanonical y), place?, place?,
    exact_eq_exact_ofUnpacked, exact_eq_exact_ofUnpacked]

/-- **Doubles are in order as their places are.** -/
theorem le_iff_place : x ≤ y ↔ ∃ p ∈ place? x, ∃ q ∈ place? y, p ≤ q := by
  have hle : x ≤ y ↔ UnpackedFloat.le x.toModel.unpack y.toModel.unpack = true := by
    show decide (x.toModel ≤ y.toModel) = true ↔ _
    exact decide_eq_true_iff
  rw [hle, UnpackedFloat.le, compare_unpack]
  cases place? x with
  | none => simp
  | some p =>
    cases place? y with
    | none => simp
    | some q => simp [Ordering.isLE_iff_ne_gt, cmp_eq_gt_iff]

@[inherit_doc le_iff_place]
theorem lt_iff_place : x < y ↔ ∃ p ∈ place? x, ∃ q ∈ place? y, p < q := by
  have hlt : x < y ↔ UnpackedFloat.lt x.toModel.unpack y.toModel.unpack = true := by
    show decide (x.toModel < y.toModel) = true ↔ _
    exact decide_eq_true_iff
  rw [hlt, UnpackedFloat.lt, compare_unpack]
  cases place? x with
  | none => simp
  | some p =>
    cases place? y with
    | none => simp
    | some q => simp [cmp_eq_lt_iff]

/-- A number is what has a place. -/
theorem le_self_iff : x ≤ x ↔ (place? x).isSome = true := by
  rw [le_iff_place]
  cases place? x <;> simp

theorem beq_self_iff : (x == x) = true ↔ x ≤ x := by
  have hbeq : (x == x) = UnpackedFloat.beq x.toModel.unpack x.toModel.unpack := rfl
  rw [hbeq, UnpackedFloat.beq, compare_unpack, le_self_iff]
  cases place? x <;> simp [cmp_self_eq_eq]

theorem le_self_left (h : x ≤ y) : x ≤ x := by
  obtain ⟨p, hp, -⟩ := le_iff_place.1 h
  exact le_iff_place.2 ⟨p, hp, p, hp, le_refl p⟩

theorem le_self_right (h : x ≤ y) : y ≤ y := by
  obtain ⟨-, -, q, hq, -⟩ := le_iff_place.1 h
  exact le_iff_place.2 ⟨q, hq, q, hq, le_refl q⟩

protected theorem le_trans (h : x ≤ y) (h' : y ≤ z) : x ≤ z := by
  obtain ⟨p, hp, q, hq, hpq⟩ := le_iff_place.1 h
  obtain ⟨q', hq', r, hr, hqr⟩ := le_iff_place.1 h'
  obtain rfl := Option.mem_unique hq hq'
  exact le_iff_place.2 ⟨p, hp, r, hr, hpq.trans hqr⟩

/-- **Numbers are totally ordered.** -/
protected theorem le_or_lt (hx : x ≤ x) (hy : y ≤ y) : x ≤ y ∨ y < x := by
  obtain ⟨p, hp, -⟩ := le_iff_place.1 hx
  obtain ⟨q, hq, -⟩ := le_iff_place.1 hy
  exact (lt_or_ge q p).symm.imp (fun h => le_iff_place.2 ⟨p, hp, q, hq, h⟩)
    fun h => lt_iff_place.2 ⟨q, hq, p, hp, h⟩

protected theorem le_of_lt (h : x < y) : x ≤ y := by
  obtain ⟨p, hp, q, hq, hpq⟩ := lt_iff_place.1 h
  exact le_iff_place.2 ⟨p, hp, q, hq, hpq.le⟩

protected theorem not_lt_of_le (h : x ≤ y) : ¬ y < x := by
  intro h'
  obtain ⟨p, hp, q, hq, hpq⟩ := le_iff_place.1 h
  obtain ⟨q', hq', p', hp', hqp⟩ := lt_iff_place.1 h'
  obtain rfl := Option.mem_unique hp hp'
  obtain rfl := Option.mem_unique hq hq'
  exact hqp.not_ge hpq

theorem le_self_of_isFinite (h : isFinite x = true) : x ≤ x := by
  obtain ⟨a, u, hx⟩ := isFinite_iff.1 h
  rw [le_self_iff, place?, hx]
  rfl

/-! ### Not a number -/

theorem le_self_iff_exact_ne_nan : x ≤ x ↔ exact x ≠ .nan := by
  rw [le_self_iff, place?]
  cases exact x <;> simp [Exact.place?]

/-- Not to be less than a number takes more than to be at least as large. -/
theorem not_lt_iff (hy : y ≤ y) : ¬ x < y ↔ y ≤ x ∨ exact x = .nan := by
  constructor
  · intro h
    by_contra hnot
    rw [not_or, ← ne_eq, ← le_self_iff_exact_ne_nan] at hnot
    exact (Scalar.le_or_lt hy hnot.2).elim hnot.1 h
  · rintro (h | h) hlt
    · exact Scalar.not_lt_of_le h hlt
    · exact le_self_iff_exact_ne_nan.1 (le_self_left (Scalar.le_of_lt hlt)) h

theorem exact_trunc_eq_nan_iff : exact (trunc x) = .nan ↔ exact x = .nan := by
  cases hparts : Binary64.ofFloat x with
  | finite a m e =>
    have hx : exact x = .finite a (m * 2 ^ e) := exact_eq_finite_iff.2 ⟨m, e, hparts, rfl⟩
    rw [exact_trunc hx, hx]
    exact ⟨by rintro ⟨⟩, by rintro ⟨⟩⟩
  | _ =>
    have htrunc : trunc x = x := by
      show Binary64.trunc x = x
      rw [Binary64.trunc, hparts]
    rw [htrunc]

/-! ### The lesser and the greater -/

theorem lesser_le (hx : x ≤ x) (y : Float) : lesser x y ≤ x := by
  rw [lesser]
  split_ifs with h
  · exact hx
  · rw [not_or, not_not] at h
    exact Scalar.le_of_lt ((Scalar.le_or_lt hx h.2).resolve_left h.1)

theorem le_greater (hx : x ≤ x) (y : Float) : x ≤ greater x y := by
  rw [greater]
  split_ifs with h
  · exact hx
  · rw [not_or, not_not] at h
    exact Scalar.le_of_lt ((Scalar.le_or_lt h.2 hx).resolve_left h.1)

theorem foldl_lesser_le (hx : x ≤ x) (ys : List Float) : ys.foldl lesser x ≤ x := by
  induction ys generalizing x with
  | nil => exact hx
  | cons y ys ih =>
    have hle := lesser_le hx y
    exact Scalar.le_trans (ih (le_self_left hle)) hle

theorem le_foldl_greater (hx : x ≤ x) (ys : List Float) : x ≤ ys.foldl greater x := by
  induction ys generalizing x with
  | nil => exact hx
  | cons y ys ih =>
    have hle := le_greater hx y
    exact Scalar.le_trans hle (ih (le_self_right hle))

end Scalar
end DiceFormula
