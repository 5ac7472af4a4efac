/-
# Corners enclose in double precision

Doubles between finite ends are finite, and what an operation makes of finite doubles is where the
exact result is once it is rounded (`Operation.place`).  Rounding is monotone, so the corners of a
link still enclose its values (`ChainRange.encloses_step`), as long as nothing that they are
computed from is infinite: with the other two held fast, the place is a monotone or an antitone
function of the value in front, of the number of rolls and of the operand, and such a function
stays within what it is at the ends of an interval (`mem_Icc_of_ends`).

As in exact arithmetic a divisor is the exception.  It moves to an operand that is tried on its
own side of zero, or to zero if it counts as zero (`LinkRange.mem_Icc_of_operands`).  The least
divisor that does not count as zero is the double nearest to `1 / 10000` (`Scalar.tenThousandth`).
-/

import DiceFormula.Proofs.Die.Ordered
import DiceFormula.Proofs.Number.Places

namespace DiceFormula

open Scalar

/-- **A monotone function stays within what it is at the ends of an interval,** and so does an
antitone one. -/
theorem mem_Icc_of_ends {f : ℚ → Place} {low x high : ℚ} {p q : Place}
    (hf : MonotoneOn f (Set.Icc low high) ∨ AntitoneOn f (Set.Icc low high))
    (hl : low ≤ x) (hh : x ≤ high) (hlow : f low ∈ Set.Icc p q) (hhigh : f high ∈ Set.Icc p q) :
    f x ∈ Set.Icc p q := by
  have hmin : low ∈ Set.Icc low high := ⟨le_rfl, hl.trans hh⟩
  have hx : x ∈ Set.Icc low high := ⟨hl, hh⟩
  have hmax : high ∈ Set.Icc low high := ⟨hl.trans hh, le_rfl⟩
  rcases hf with hf | hf
  · exact ⟨hlow.1.trans (hf hmin hx hl), (hf hx hmax hh).trans hhigh.2⟩
  · exact ⟨hhigh.1.trans (hf hx hmax hh), (hf hmin hx hl).trans hlow.2⟩

@[inherit_doc mem_Icc_of_ends]
theorem mem_Icc_of_monotone_or {f : ℚ → Place} {low x high : ℚ} {p q : Place}
    (hf : Monotone f ∨ Antitone f) (hl : low ≤ x) (hh : x ≤ high)
    (hlow : f low ∈ Set.Icc p q) (hhigh : f high ∈ Set.Icc p q) : f x ∈ Set.Icc p q :=
  mem_Icc_of_ends (hf.imp (·.monotoneOn _) (·.antitoneOn _)) hl hh hlow hhigh

namespace Scalar

/-- The double nearest to `1 / 10000`: the least divisor above zero that does not count as zero. -/
def tenThousandth : ℚ := nearest (1 / 10000)

theorem tenThousandth_pos : 0 < tenThousandth := by
  refine nearest_pos ?_
  calc (2 : ℚ) ^ (-1074 : ℤ) ≤ 2 ^ (-14 : ℤ) := two_zpow_le_iff.2 (by norm_num)
    _ ≤ 1 / 10000 := by norm_num

theorem tenThousandth_le_one : tenThousandth ≤ 1 := by
  have hone : IsDouble 1 := ⟨1, 0, by norm_num, by norm_num, by norm_num⟩
  exact hone.nearest_le (by norm_num) (by norm_num)

theorem hasValue_threshold :
    HasValue threshold tenThousandth ∧ HasValue negThreshold (-tenThousandth) := by
  have hlt : nearest ((1 : ℕ) / 10 ^ 4) < doubleLimit := by
    have hone : (1 : ℚ) < doubleLimit := by
      rw [doubleLimit]
      exact_mod_cast two_zpow_lt_iff.2 (by norm_num : (0 : ℤ) < 1024)
    have hle := tenThousandth_le_one.trans_lt hone
    rw [tenThousandth] at hle
    norm_num
    norm_num at hle
    exact hle
  constructor
  · refine hasValue_iff.2 ⟨_, _, exact_ofDecimal false 1 4 hlt, ?_⟩
    norm_num [withSign, tenThousandth]
  · refine hasValue_iff.2 ⟨_, _, exact_ofDecimal true 1 4 hlt, ?_⟩
    norm_num [withSign, tenThousandth]

theorem isNegligible_iff {x : Float} {v : ℚ} (hx : HasValue x v) :
    isNegligible x = true ↔ |v| < tenThousandth := by
  rw [isNegligible, Bool.and_eq_true, decide_eq_true_iff, decide_eq_true_iff, abs_lt,
    hasValue_threshold.2.lt_iff hx, hx.lt_iff hasValue_threshold.1]

theorem HasValue.lesser {x y : Float} {v w : ℚ} (hx : HasValue x v) (hy : HasValue y w) :
    HasValue (lesser x y) (min v w) := by
  have hle := hx.le_iff hy
  rw [Scalar.lesser]
  split_ifs with hor
  · rw [min_eq_left (hle.1 (hor.resolve_right (not_not.2 hy.le_self)))]
    exact hx
  · rw [min_eq_right (not_le.1 (hle.not.1 (not_or.1 hor).1)).le]
    exact hy

theorem HasValue.greater {x y : Float} {v w : ℚ} (hx : HasValue x v) (hy : HasValue y w) :
    HasValue (greater x y) (max v w) := by
  have hle := hy.le_iff hx
  rw [Scalar.greater]
  split_ifs with hor
  · rw [max_eq_left (hle.1 (hor.resolve_right (not_not.2 hy.le_self)))]
    exact hx
  · rw [max_eq_right (not_le.1 (hle.not.1 (not_or.1 hor).1)).le]
    exact hy

end Scalar

namespace Operation

/-- Where an operation on finite doubles is. -/
def place (op : Operation) (left right count : ℚ) : Place :=
  match op with
  | plus => .round (left + right)
  | minus => .round (left - right)
  | multiply => .round (left * right)
  | divide => if |right| < tenThousandth then .of 0 else .round (left / right)
  | eachPlus => .shift left (.round (count * right))
  | eachMinus => .shift left (.neg (.round (count * right)))

theorem place?_combine {left right count : Float} {v w k : ℚ} (op : Operation)
    (hl : HasValue left v) (hr : HasValue right w) (hc : HasValue count k) :
    place? (op.combine left right count) = some (op.place v w k) := by
  have hproduct : count * right ≤ count * right := by
    rw [le_self_iff, hc.place?_mul hr]
    rfl
  cases op with
  | plus => exact hl.place?_add hr
  | minus => exact hl.place?_sub hr
  | multiply => exact hl.place?_mul hr
  | divide =>
    rw [combine, place]
    by_cases h : |w| < tenThousandth
    · rw [if_pos ((isNegligible_iff hr).2 h), if_pos h]
      exact hasValue_zero
    · rw [if_neg ((isNegligible_iff hr).not.2 h), if_neg h]
      refine hl.place?_div hr ?_
      rintro rfl
      rw [abs_zero] at h
      exact h tenThousandth_pos
  | eachPlus =>
    rw [combine, place?_add hl hproduct, hc.place?_mul hr]
    rfl
  | eachMinus =>
    rw [combine, place?_sub hl hproduct, hc.place?_mul hr]
    rfl

/-! ### One coordinate at a time -/

/-- A multiple is a monotone or an antitone function, rounded or not. -/
theorem round_mul_monotone_or (k : ℚ) :
    (Monotone fun v => Place.round (k * v)) ∨ Antitone fun v => Place.round (k * v) := by
  rcases le_total 0 k with hk | hk
  · exact .inl fun _ _ h => Place.round_mono (mul_le_mul_of_nonneg_left h hk)
  · exact .inr fun _ _ h => Place.round_mono (mul_le_mul_of_nonpos_left h hk)

theorem place_left (op : Operation) (right count : ℚ) :
    (Monotone fun left => op.place left right count) ∨
      Antitone fun left => op.place left right count := by
  cases op with
  | plus => exact .inl fun _ _ h => Place.round_mono (by linarith)
  | minus => exact .inl fun _ _ h => Place.round_mono (by linarith)
  | multiply =>
    simp only [place, mul_comm _ right]
    exact round_mul_monotone_or right
  | divide =>
    simp only [place]
    split_ifs
    · exact .inl monotone_const
    · simp only [div_eq_inv_mul]
      exact round_mul_monotone_or right⁻¹
  | eachPlus => exact .inl fun _ _ h => Place.shift_le_shift h le_rfl
  | eachMinus => exact .inl fun _ _ h => Place.shift_le_shift h le_rfl

theorem place_count (op : Operation) (left right : ℚ) :
    (Monotone fun count => op.place left right count) ∨
      Antitone fun count => op.place left right count := by
  have hround := round_mul_monotone_or right
  simp only [mul_comm right] at hround
  cases op with
  | eachPlus =>
    exact hround.imp (fun h _ _ hle => Place.shift_le_shift le_rfl (h hle))
      fun h _ _ hle => Place.shift_le_shift le_rfl (h hle)
  | eachMinus =>
    exact hround.symm.imp (fun h _ _ hle => Place.shift_le_shift le_rfl (Place.neg_anti (h hle)))
      fun h _ _ hle => Place.shift_le_shift le_rfl (Place.neg_anti (h hle))
  | _ => exact .inl monotone_const

theorem place_right {op : Operation} (hop : op ≠ divide) (left count : ℚ) :
    (Monotone fun right => op.place left right count) ∨
      Antitone fun right => op.place left right count := by
  have hround := round_mul_monotone_or count
  cases op with
  | plus => exact .inl fun _ _ h => Place.round_mono (by linarith)
  | minus => exact .inr fun _ _ h => Place.round_mono (by linarith)
  | multiply => exact round_mul_monotone_or left
  | divide => exact absurd rfl hop
  | eachPlus =>
    exact hround.imp (fun h _ _ hle => Place.shift_le_shift le_rfl (h hle))
      fun h _ _ hle => Place.shift_le_shift le_rfl (h hle)
  | eachMinus =>
    exact hround.symm.imp (fun h _ _ hle => Place.shift_le_shift le_rfl (Place.neg_anti (h hle)))
      fun h _ _ hle => Place.shift_le_shift le_rfl (Place.neg_anti (h hle))

/-- On one side of zero a quotient is a monotone or an antitone function of the divisor. -/
theorem place_divisor (left count : ℚ) {low high : ℚ}
    (h : tenThousandth ≤ low ∨ high ≤ -tenThousandth) :
    MonotoneOn (fun right => divide.place left right count) (Set.Icc low high) ∨
      AntitoneOn (fun right => divide.place left right count) (Set.Icc low high) := by
  have hpos := tenThousandth_pos
  have hplace : Set.EqOn (fun right => Place.round (left * right⁻¹))
      (fun right => divide.place left right count) (Set.Icc low high) := by
    rintro right ⟨hlow, hhigh⟩
    have hlarge : ¬ |right| < tenThousandth := by
      rw [not_lt, le_abs']
      exact h.symm.imp hhigh.trans fun h => h.trans hlow
    simp only [place, if_neg hlarge, div_eq_mul_inv]
  have hinv : AntitoneOn (fun right : ℚ => right⁻¹) (Set.Icc low high) := by
    rintro v ⟨hlow, -⟩ w ⟨-, hhigh⟩ hvw
    rcases h with h | h
    · exact inv_anti₀ (hpos.trans_le (h.trans hlow)) hvw
    · have hw : w < 0 := by linarith
      exact (inv_le_inv_of_neg hw (hvw.trans_lt hw)).2 hvw
  rcases round_mul_monotone_or left with hround | hround
  · exact .inr ((hround.comp_antitoneOn hinv).congr hplace)
  · exact .inl ((hround.comp_antitoneOn hinv).congr hplace)

end Operation

/-! ### Finite bounds -/

namespace Bounds

/-- Both ends are finite. -/
def Finite (b : Bounds Float) : Prop := isFinite b.low = true ∧ isFinite b.high = true

instance (b : Bounds Float) : Decidable b.Finite := inferInstanceAs (Decidable (_ ∧ _))

/-- Whether a double lies in a range. -/
def Encloses (b : Bounds Float) (x : Float) : Prop := b.low ≤ x ∧ x ≤ b.high

variable {b : Bounds Float} {x : Float}

/-- **What lies in a finite range is finite.** -/
theorem Encloses.exists_values (hx : b.Encloses x) (hb : b.Finite) :
    ∃ low v high, HasValue b.low low ∧ HasValue x v ∧ HasValue b.high high ∧
      low ≤ v ∧ v ≤ high := by
  obtain ⟨low, hlow⟩ := exists_hasValue hb.1
  obtain ⟨high, hhigh⟩ := exists_hasValue hb.2
  obtain ⟨p, hp, q, hq, hpq⟩ := le_iff_place.1 hx.1
  obtain ⟨q', hq', r, hr, hqr⟩ := le_iff_place.1 hx.2
  obtain rfl := Option.mem_unique hq hq'
  obtain rfl := Option.mem_unique hp hlow
  obtain rfl := Option.mem_unique hr hhigh
  obtain ⟨v, rfl⟩ : ∃ v, q = Place.of v := by
    rcases q with _ | _ | v
    · exact absurd (le_bot_iff.1 hpq) (by rintro ⟨⟩)
    · exact absurd (top_le_iff.1 (WithBot.coe_le_coe.1 hqr)) (by rintro ⟨⟩)
    · exact ⟨v, rfl⟩
  exact ⟨low, v, high, hlow, hq, hhigh, Place.of_le_of.1 hpq, Place.of_le_of.1 hqr⟩

theorem Encloses.exists_places (hx : b.Encloses x) :
    ∃ p q, place? b.low = some p ∧ place? b.high = some q := by
  obtain ⟨p, hp, -⟩ := le_iff_place.1 hx.1
  obtain ⟨-, -, q, hq, -⟩ := le_iff_place.1 hx.2
  exact ⟨p, q, hp, hq⟩

theorem encloses_iff {p q r : Place} (hp : place? b.low = some p) (hq : place? b.high = some q)
    (hr : place? x = some r) : b.Encloses x ↔ r ∈ Set.Icc p q := by
  rw [Encloses, le_iff_place, le_iff_place, hp, hq, hr]
  simp

theorem Encloses.congr {y : Float} (hx : b.Encloses x) (h : place? x = place? y) :
    b.Encloses y := by
  rw [Encloses, le_iff_place, le_iff_place, ← h, ← le_iff_place, ← le_iff_place]
  exact hx

theorem encloses_single (hx : x ≤ x) : (single x).Encloses x := ⟨hx, hx⟩

/-- The integer part of a value lies between those of the bounds. -/
theorem Encloses.trunc (hx : b.Encloses x) (hb : b.Finite) : b.trunc.Encloses (Scalar.trunc x) := by
  obtain ⟨low, v, high, hlow, hv, hhigh, hl, hh⟩ := hx.exists_values hb
  exact ⟨(hlow.trunc.le_iff hv.trunc).2 (trunc_mono hl),
    (hv.trunc.le_iff hhigh.trunc).2 (trunc_mono hh)⟩

theorem Finite.trunc (hb : b.Finite) : b.trunc.Finite := by
  obtain ⟨low, hlow⟩ := exists_hasValue hb.1
  obtain ⟨high, hhigh⟩ := exists_hasValue hb.2
  exact ⟨hlow.trunc.isFinite, hhigh.trunc.isFinite⟩

/-! ### Hulls -/

theorem lesser_le_right (x : Float) {y : Float} (hy : y ≤ y) : lesser x y ≤ y := by
  rw [lesser]
  split_ifs with h
  · exact h.resolve_right (not_not.2 hy)
  · exact hy

theorem right_le_greater (x : Float) {y : Float} (hy : y ≤ y) : y ≤ greater x y := by
  rw [greater]
  split_ifs with h
  · exact h.resolve_right (not_not.2 hy)
  · exact hy

theorem foldl_lesser_le_of_mem {y : Float} (hy : y ≤ y) :
    ∀ {ys : List Float} (x : Float), y ∈ ys → ys.foldl lesser x ≤ y
  | z :: ys, x, h => by
    rw [List.foldl_cons]
    rcases List.mem_cons.1 h with rfl | h
    · have hle := lesser_le_right x hy
      exact Scalar.le_trans (foldl_lesser_le (le_self_left hle) ys) hle
    · exact foldl_lesser_le_of_mem hy _ h

theorem le_foldl_greater_of_mem {y : Float} (hy : y ≤ y) :
    ∀ {ys : List Float} (x : Float), y ∈ ys → y ≤ ys.foldl greater x
  | z :: ys, x, h => by
    rw [List.foldl_cons]
    rcases List.mem_cons.1 h with rfl | h
    · have hle := right_le_greater x hy
      exact Scalar.le_trans hle (le_foldl_greater (le_self_right hle) ys)
    · exact le_foldl_greater_of_mem hy _ h

/-- **A hull encloses its numbers.** -/
theorem hull_encloses {xs : List Float} (h : x ∈ xs) (hx : x ≤ x) : (hull xs).Encloses x := by
  have hmem : x ∈ xs.filter fun y => y ≤ y := List.mem_filter.2 ⟨h, decide_eq_true hx⟩
  rw [hull]
  cases hnumbers : xs.filter fun y => y ≤ y with
  | nil =>
    rw [hnumbers] at hmem
    exact absurd hmem List.not_mem_nil
  | cons y ys =>
    rw [hnumbers, List.mem_cons] at hmem
    rcases hmem with rfl | hmem
    · exact ⟨foldl_lesser_le hx ys, le_foldl_greater hx ys⟩
    · exact ⟨foldl_lesser_le_of_mem hx y hmem, le_foldl_greater_of_mem hx y hmem⟩

end Bounds

/-! ### Links -/

namespace LinkRange

variable {r : LinkRange Float}

/-- The least divisor above zero that a link tries. -/
def leastOperand (r : LinkRange Float) : Float := if r.isWhole then ofInt 1 else threshold

/-- The greatest divisor below zero that a link tries. -/
def greatestOperand (r : LinkRange Float) : Float := if r.isWhole then ofInt (-1) else negThreshold

theorem exists_value_leastOperand (r : LinkRange Float) :
    ∃ u, HasValue r.leastOperand u ∧ HasValue r.greatestOperand (-u) ∧ tenThousandth ≤ u ∧
      (r.isWhole = true → u = 1) ∧ (r.isWhole = false → u = tenThousandth) := by
  rw [leastOperand, greatestOperand]
  cases r.isWhole with
  | true =>
    have hminus : HasValue (ofInt (-1)) ((-1 : ℤ) : ℚ) := hasValue_ofInt (by norm_num)
    rw [Int.cast_neg, Int.cast_one] at hminus
    exact ⟨1, hasValue_one, hminus, tenThousandth_le_one, fun _ => rfl, by rintro ⟨⟩⟩
  | false =>
    exact ⟨_, hasValue_threshold.1, hasValue_threshold.2, le_rfl, by rintro ⟨⟩, fun _ => rfl⟩

theorem mem_operands_divide_iff (hop : r.operation = .divide) {e : Float} :
    e ∈ r.operands ↔ e ∈ [r.values.low, r.values.high]
      ∨ (r.leastOperand ≤ r.values.high ∧ e = greater r.values.low r.leastOperand)
      ∨ (r.values.low ≤ r.greatestOperand ∧ e = lesser r.values.high r.greatestOperand)
      ∨ ((r.values.low < threshold ∧ negThreshold < r.values.high) ∧ e = ofInt 0) := by
  have hoperands : r.operands = [r.values.low, r.values.high]
      ++ (if r.leastOperand ≤ r.values.high then [greater r.values.low r.leastOperand] else [])
      ++ (if r.values.low ≤ r.greatestOperand then [lesser r.values.high r.greatestOperand] else [])
      ++ (if r.values.low < threshold ∧ negThreshold < r.values.high then [ofInt 0] else []) := by
    simp only [operands, if_pos hop]
    rfl
  rw [hoperands, List.mem_append, List.mem_append, List.mem_append, List.mem_ite_nil_right,
    List.mem_ite_nil_right, List.mem_ite_nil_right, List.mem_singleton, List.mem_singleton,
    List.mem_singleton, or_assoc, or_assoc]

/-- **A divisor stays within what its operands are.** -/
theorem mem_Icc_of_divisors (hop : r.operation = .divide) {low high v left count : ℚ} {p q : Place}
    (hlow : HasValue r.values.low low) (hhigh : HasValue r.values.high high) (hl : low ≤ v)
    (hh : v ≤ high) (hw : r.isWhole = true → v ∈ wholeNumbers)
    (h : ∀ e ∈ r.operands, ∀ w, HasValue e w →
      Operation.divide.place left w count ∈ Set.Icc p q) :
    Operation.divide.place left v count ∈ Set.Icc p q := by
  obtain ⟨u, hleast, hgreatest, hu, hone, hthreshold⟩ := r.exists_value_leastOperand
  have hpos := tenThousandth_pos
  simp only [mem_operands_divide_iff hop] at h
  -- A divisor that does not count as zero is at least as far from it as the one that is tried.
  have hfar (hv : tenThousandth ≤ |v|) : u ≤ |v| := by
    cases hwhole : r.isWhole with
    | false => rwa [hthreshold hwhole]
    | true =>
      obtain ⟨n, rfl⟩ := mem_wholeNumbers.1 (hw hwhole)
      have hn : n ≠ 0 := by
        rintro rfl
        rw [Int.cast_zero, abs_zero] at hv
        exact absurd hpos (not_lt.2 hv)
      rw [hone hwhole]
      exact_mod_cast Int.one_le_abs hn
  rcases lt_or_ge |v| tenThousandth with hv | hv
  · have hzero := h (ofInt 0) (.inr (.inr (.inr ⟨⟨?_, ?_⟩, rfl⟩))) 0 hasValue_zero
    · rw [Operation.place, if_pos hv]
      rwa [Operation.place, abs_zero, if_pos hpos] at hzero
    · exact (hlow.lt_iff hasValue_threshold.1).2 (hl.trans_lt (abs_lt.1 hv).2)
    · exact (hasValue_threshold.2.lt_iff hhigh).2 ((abs_lt.1 hv).1.trans_le hh)
  · rcases le_abs'.1 (hfar hv) with hneg | hpos
    · refine mem_Icc_of_ends (f := fun right => Operation.divide.place left right count)
        (Operation.place_divisor left count (.inr ?_)) hl (le_min hh hneg)
        (h _ (.inl (by simp)) _ hlow)
        (h _ (.inr (.inr (.inl ⟨?_, rfl⟩))) _ (hhigh.lesser hgreatest))
      · exact (min_le_right _ _).trans (neg_le_neg hu)
      · exact (hlow.le_iff hgreatest).2 (hl.trans hneg)
    · refine mem_Icc_of_ends (f := fun right => Operation.divide.place left right count)
        (Operation.place_divisor left count (.inl ?_)) (max_le hl hpos) hh
        (h _ (.inr (.inl ⟨?_, rfl⟩)) _ (hlow.greater hleast)) (h _ (.inl (by simp)) _ hhigh)
      · exact hu.trans (le_max_right _ _)
      · exact (hleast.le_iff hhigh).2 (hpos.trans hh)

/-- **An operand stays within what those are that are tried.** -/
theorem mem_Icc_of_operands {low high v left count : ℚ} {p q : Place}
    (hlow : HasValue r.values.low low) (hhigh : HasValue r.values.high high) (hl : low ≤ v)
    (hh : v ≤ high) (hw : r.isWhole = true → v ∈ wholeNumbers)
    (h : ∀ e ∈ r.operands, ∀ w, HasValue e w → r.operation.place left w count ∈ Set.Icc p q) :
    r.operation.place left v count ∈ Set.Icc p q := by
  by_cases hop : r.operation = .divide
  · rw [hop] at h ⊢
    exact mem_Icc_of_divisors hop hlow hhigh hl hh hw h
  · have hends : r.operands = [r.values.low, r.values.high] := by simp only [operands, if_neg hop]
    rw [hends] at h
    exact mem_Icc_of_monotone_or (f := fun right => r.operation.place left right count)
      (Operation.place_right hop left count) hl hh (h _ (by simp) _ hlow) (h _ (by simp) _ hhigh)

end LinkRange

namespace ChainRange

variable {c : ChainRange Float} {r : LinkRange Float} {left count right : Float}

theorem combine_mem_corners {l k e : Float} (hl : l ∈ [c.values.low, c.values.high])
    (hk : k ∈ [c.counts.low, c.counts.high]) (he : e ∈ r.operands) :
    r.operation.combine l e k ∈ c.corners r :=
  List.mem_flatMap.2 ⟨l, hl, List.mem_flatMap.2 ⟨k, hk, List.mem_map.2 ⟨e, he, rfl⟩⟩⟩

/-- **The bounds of a link enclose its values** in double precision too, if nothing that they are
computed from is infinite. -/
theorem encloses_step (hc : c.values.Finite) (hk : c.counts.Finite) (hr : r.values.Finite)
    (hleft : c.values.Encloses left) (hcount : c.counts.Encloses count)
    (hright : r.values.Encloses right) (hw : r.isWhole = true → IsWhole right) :
    (c.step r).values.Encloses (r.operation.combine left right count) := by
  obtain ⟨l₁, l, l₂, hl₁, hl, hl₂, hl₁l, hll₂⟩ := hleft.exists_values hc
  obtain ⟨k₁, k, k₂, hk₁, hk, hk₂, hk₁k, hkk₂⟩ := hcount.exists_values hk
  obtain ⟨r₁, w, r₂, hr₁, hr, hr₂, hr₁r, hrr₂⟩ := hright.exists_values hr
  have hcorner {l' e k' : Float} {v u t : ℚ} (hmem : r.operation.combine l' e k' ∈ c.corners r)
      (hv : HasValue l' v) (hu : HasValue e u) (ht : HasValue k' t) :
      (c.step r).values.Encloses (r.operation.combine l' e k') :=
    Bounds.hull_encloses hmem (by rw [le_self_iff, Operation.place?_combine _ hv hu ht]; rfl)
  have hfirst : r.operation.combine c.values.low r.values.low c.counts.low ∈ c.corners r :=
    combine_mem_corners List.mem_cons_self List.mem_cons_self
      (r.mem_operands_of_mem_ends List.mem_cons_self)
  obtain ⟨p, q, hp, hq⟩ := (hcorner hfirst hl₁ hr₁ hk₁).exists_places
  -- One coordinate after the other moves to a corner.
  have hoperand {l' k' : Float} {v t : ℚ} (hl' : l' ∈ [c.values.low, c.values.high])
      (hk' : k' ∈ [c.counts.low, c.counts.high]) (hv : HasValue l' v) (ht : HasValue k' t) :
      r.operation.place v w t ∈ Set.Icc p q := by
    refine LinkRange.mem_Icc_of_operands hr₁ hr₂ hr₁r hrr₂ (fun h => hw h _ hr) fun e he u hu => ?_
    rw [← Bounds.encloses_iff hp hq (Operation.place?_combine _ hv hu ht)]
    exact hcorner (combine_mem_corners hl' hk' he) hv hu ht
  have hnumber {l' : Float} {v : ℚ} (hl' : l' ∈ [c.values.low, c.values.high])
      (hv : HasValue l' v) : r.operation.place v w k ∈ Set.Icc p q :=
    mem_Icc_of_monotone_or (f := fun count => r.operation.place v w count)
      (Operation.place_count _ _ _) hk₁k hkk₂ (hoperand hl' (by simp) hv hk₁)
      (hoperand hl' (by simp) hv hk₂)
  rw [Bounds.encloses_iff hp hq (Operation.place?_combine _ hl hr hk)]
  exact mem_Icc_of_monotone_or (f := fun left => r.operation.place left w k)
    (Operation.place_left _ _ _) hl₁l hll₂ (hnumber (by simp) hl₁) (hnumber (by simp) hl₂)

end ChainRange
end DiceFormula
