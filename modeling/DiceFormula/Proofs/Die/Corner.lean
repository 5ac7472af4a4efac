/-
# Corners enclose

The bounds of a link are the hull of the values at its corners.  This module shows
that the hull encloses every value of the link: what the operation makes of a value
in front, a number of rolls in front and an operand that each lie in their own
bounds (`ChainRange.contains_step`).

With the other two held fast, the value of an operation is an affine function of the
value in front and of the number of rolls, and an affine function on an interval
takes its extremes at the ends (`exists_end_le`).  It is an affine function of the
operand too, except for division, which is one of the reciprocal of the operand on
either side of zero; the operands that are tried for a divisor are the ends of these
two ranges (`LinkRange.exists_operand_le`).  So one coordinate after the other moves
to a corner.  It moves down for the lower bound and up for the upper bound, and a
factor `s` of `1` or `-1` says which.
-/

import DiceFormula.Die.Bounds
import DiceFormula.Proofs.Number.Rational
import Mathlib.Tactic.Ring

namespace DiceFormula

/-- **An affine function on an interval is nowhere below both of its ends.** -/
theorem exists_end_le (s a b : ℚ) {low x high : ℚ} (hl : low ≤ x) (hh : x ≤ high) :
    ∃ e ∈ [low, high], s * (a * e + b) ≤ s * (a * x + b) := by
  rcases le_total 0 (s * a) with h | h
  · exact ⟨low, by simp, by linarith [mul_le_mul_of_nonneg_left hl h]⟩
  · exact ⟨high, by simp, by linarith [mul_le_mul_of_nonpos_left hh h]⟩

namespace Bounds

/-- Whether a value lies in a range. -/
def Contains (b : Bounds ℚ) (x : ℚ) : Prop := b.low ≤ x ∧ x ≤ b.high

theorem contains_single (x : ℚ) : (single x).Contains x := ⟨le_rfl, le_rfl⟩

/-- The integer part of a value lies between those of the bounds. -/
theorem Contains.trunc {b : Bounds ℚ} {x : ℚ} (h : b.Contains x) :
    b.trunc.Contains (Scalar.trunc x) :=
  ⟨Scalar.trunc_mono h.1, Scalar.trunc_mono h.2⟩

theorem hull_cons (x : ℚ) (xs : List ℚ) :
    hull (x :: xs) = ⟨xs.foldl min x, xs.foldl max x⟩ := by
  have h : (x :: xs).filter (fun y => y ≤ y) = x :: xs := by simp
  rw [hull, h, funext₂ Scalar.lesser_rat, funext₂ Scalar.greater_rat]

/-- **The lower end of a hull is the least of its numbers.** -/
theorem min?_eq_hull_low {xs : List ℚ} (h : xs ≠ []) : xs.min? = some (hull xs).low := by
  cases xs with
  | nil => exact absurd rfl h
  | cons x xs => rw [hull_cons, List.min?_cons']

/-- **The upper end of a hull is the greatest of its numbers.** -/
theorem max?_eq_hull_high {xs : List ℚ} (h : xs ≠ []) : xs.max? = some (hull xs).high := by
  cases xs with
  | nil => exact absurd rfl h
  | cons x xs => rw [hull_cons, List.max?_cons']

/-- A hull contains its numbers. -/
theorem hull_contains {xs : List ℚ} {x : ℚ} (h : x ∈ xs) : (hull xs).Contains x :=
  have hne : xs ≠ [] := List.ne_nil_of_mem h
  ⟨(List.min?_eq_some_iff.1 (min?_eq_hull_low hne)).2 x h,
    (List.max?_eq_some_iff.1 (max?_eq_hull_high hne)).2 x h⟩

theorem times_rat (counts values : Bounds ℚ) :
    counts.times values = ⟨min (counts.low * values.low) (counts.high * values.low),
      max (counts.low * values.high) (counts.high * values.high)⟩ := by
  rw [times, Scalar.lesser_rat, Scalar.greater_rat]

/-- **A sum of `n` values lies in the range of such sums:** it is at least `n` times
the lower bound of the values, which is least for an extreme `n`. -/
theorem times_contains {counts values : Bounds ℚ} {n sum : ℚ} (hn : counts.Contains n)
    (hl : n * values.low ≤ sum) (hh : sum ≤ n * values.high) :
    (counts.times values).Contains sum := by
  rw [times_rat]
  obtain ⟨e, he, hle⟩ := exists_end_le 1 values.low 0 hn.1 hn.2
  obtain ⟨f, hf, hge⟩ := exists_end_le (-1) values.high 0 hn.1 hn.2
  rw [List.mem_pair] at he hf
  constructor
  · rcases he with rfl | rfl
    · exact (min_le_left _ _).trans (by linarith)
    · exact (min_le_right _ _).trans (by linarith)
  · rcases hf with rfl | rfl
    · exact le_trans (by linarith) (le_max_left _ _)
    · exact le_trans (by linarith) (le_max_right _ _)

end Bounds

/-- A pool without a count has the bounds of its die. -/
theorem Pool.bounds_single (custom : CustomDie → Bounds ℚ) (d : Die ℚ) :
    (single d).bounds custom = d.bounds custom := by
  rw [bounds, counts, valueBounds, Bounds.times_rat, Bounds.single, Scalar.ofInt_rat,
    Int.cast_one, one_mul, one_mul, min_self, max_self]

namespace Operation

theorem combine_divide_of_negligible {right : ℚ} (left count : ℚ)
    (h : -(1 / 10000) < right ∧ right < 1 / 10000) : divide.combine left right count = 0 := by
  rw [combine, if_pos ((Scalar.isNegligible_rat right).2 h)]
  rfl

theorem combine_divide_of_le_abs {right : ℚ} (left count : ℚ) (h : 1 / 10000 ≤ |right|) :
    divide.combine left right count = left * right⁻¹ := by
  have hr : ¬ Scalar.isNegligible right = true := by
    rw [Scalar.isNegligible_rat, ← abs_lt]
    exact not_lt.2 h
  rw [combine, if_neg hr, ← div_eq_mul_inv]

/-- The value of an operation is an affine function of the value in front. -/
theorem exists_affine_left (op : Operation) (right count : ℚ) :
    ∃ a b : ℚ, ∀ left, op.combine left right count = a * left + b := by
  cases op with
  | plus => exact ⟨1, right, fun left => by rw [combine]; ring⟩
  | minus => exact ⟨1, -right, fun left => by rw [combine]; ring⟩
  | multiply => exact ⟨right, 0, fun left => by rw [combine]; ring⟩
  | divide =>
    by_cases h : |right| < 1 / 10000
    · exact ⟨0, 0, fun left => by rw [combine_divide_of_negligible _ _ (abs_lt.1 h)]; ring⟩
    · exact ⟨right⁻¹, 0, fun left => by rw [combine_divide_of_le_abs _ _ (not_lt.1 h)]; ring⟩
  | eachPlus => exact ⟨1, count * right, fun left => by rw [combine]; ring⟩
  | eachMinus => exact ⟨1, -(count * right), fun left => by rw [combine]; ring⟩

/-- Only the each operations look at the number of rolls in front. -/
theorem combine_of_not_isEach {op : Operation} (h : op.isEach = false)
    (left right count count' : ℚ) :
    op.combine left right count = op.combine left right count' := by
  cases op with
  | plus | minus | multiply | divide => rfl
  | eachPlus | eachMinus => cases h

/-- The value of an operation is an affine function of the number of rolls in front. -/
theorem exists_affine_count (op : Operation) (left right : ℚ) :
    ∃ a b : ℚ, ∀ count, op.combine left right count = a * count + b := by
  cases op with
  | plus => exact ⟨0, left + right, fun count => by rw [combine]; ring⟩
  | minus => exact ⟨0, left - right, fun count => by rw [combine]; ring⟩
  | multiply => exact ⟨0, left * right, fun count => by rw [combine]; ring⟩
  | divide =>
    exact ⟨0, divide.combine left right 0, fun count => by rw [combine, combine]; ring⟩
  | eachPlus => exact ⟨right, left, fun count => by rw [combine]; ring⟩
  | eachMinus => exact ⟨-right, left, fun count => by rw [combine]; ring⟩

/-- The value of an operation other than division is an affine function of the operand. -/
theorem exists_affine_right {op : Operation} (h : op ≠ divide) (left count : ℚ) :
    ∃ a b : ℚ, ∀ right, op.combine left right count = a * right + b := by
  cases op with
  | plus => exact ⟨1, left, fun right => by rw [combine]; ring⟩
  | minus => exact ⟨-1, left, fun right => by rw [combine]; ring⟩
  | multiply => exact ⟨left, 0, fun right => by rw [combine]; ring⟩
  | divide => exact absurd rfl h
  | eachPlus => exact ⟨count, left, fun right => by rw [combine]; ring⟩
  | eachMinus => exact ⟨-count, left, fun right => by rw [combine]; ring⟩

end Operation

namespace LinkRange

/-- The least divisor above zero that does not count as zero and can be rolled. -/
def leastDivisor (r : LinkRange ℚ) : ℚ := if r.isWhole then 1 else 1 / 10000

theorem threshold_le_leastDivisor (r : LinkRange ℚ) : 1 / 10000 ≤ r.leastDivisor := by
  rw [leastDivisor]
  split_ifs <;> norm_num

theorem operands_divide {r : LinkRange ℚ} (h : r.operation = .divide) :
    r.operands = [r.values.low, r.values.high]
      ++ (if r.leastDivisor ≤ r.values.high then [max r.values.low r.leastDivisor] else [])
      ++ (if r.values.low ≤ -r.leastDivisor then [min r.values.high (-r.leastDivisor)] else [])
      ++ (if r.values.low < 1 / 10000 ∧ -(1 / 10000) < r.values.high then [0] else []) := by
  have h₁ : (if r.isWhole then Scalar.ofInt 1 else Scalar.threshold : ℚ) = r.leastDivisor := by
    rw [leastDivisor, Scalar.threshold_rat]
    rfl
  have h₂ : (if r.isWhole then Scalar.ofInt (-1) else Scalar.negThreshold : ℚ)
      = -r.leastDivisor := by
    rw [leastDivisor, Scalar.negThreshold_rat, Scalar.ofInt_rat]
    split_ifs <;> norm_num
  simp only [operands, if_pos h, h₁, h₂]
  rw [Scalar.threshold_rat, Scalar.negThreshold_rat, Scalar.greater_rat, Scalar.lesser_rat]
  rfl

theorem mem_operands_divide {r : LinkRange ℚ} (h : r.operation = .divide) {x : ℚ} :
    x ∈ r.operands ↔ x ∈ [r.values.low, r.values.high]
      ∨ (r.leastDivisor ≤ r.values.high ∧ x = max r.values.low r.leastDivisor)
      ∨ (r.values.low ≤ -r.leastDivisor ∧ x = min r.values.high (-r.leastDivisor))
      ∨ ((r.values.low < 1 / 10000 ∧ -(1 / 10000) < r.values.high) ∧ x = 0) := by
  rw [operands_divide h, List.mem_append, List.mem_append, List.mem_append, List.mem_ite_nil_right,
    List.mem_ite_nil_right, List.mem_ite_nil_right, List.mem_singleton, List.mem_singleton,
    List.mem_singleton, or_assoc, or_assoc]

theorem operands_of_ne_divide {r : LinkRange ℚ} (h : r.operation ≠ .divide) :
    r.operands = [r.values.low, r.values.high] := by
  simp only [operands, if_neg h]

theorem operands_ne_nil (r : LinkRange ℚ) : r.operands ≠ [] := by
  by_cases h : r.operation = .divide
  · simp [operands_divide h]
  · simp [operands_of_ne_divide h]

/-- A divisor of a pool that only rolls whole values is negligible, or at least one. -/
theorem leastDivisor_le {r : LinkRange ℚ} {x : ℚ} (hx : 1 / 10000 ≤ x)
    (hw : r.isWhole = true → x ∈ wholeNumbers) : r.leastDivisor ≤ x := by
  rw [leastDivisor]
  split_ifs with h
  · obtain ⟨n, rfl⟩ := mem_wholeNumbers.1 (hw h)
    have : (0 : ℚ) < n := by linarith
    exact_mod_cast Int.cast_pos.1 this
  · exact hx

/-- **A divisor moves to one of those that are tried.** -/
theorem exists_divisor_le (s : ℚ) {r : LinkRange ℚ} (h : r.operation = .divide) (left count : ℚ)
    {right : ℚ} (hr : r.values.Contains right)
    (hw : r.isWhole = true → right ∈ wholeNumbers) :
    ∃ e ∈ r.operands, s * Operation.divide.combine left e count
      ≤ s * Operation.divide.combine left right count := by
  have ht := r.threshold_le_leastDivisor
  rcases lt_or_ge |right| (1 / 10000) with hz | hz
  · have hz := abs_lt.1 hz
    have hzero : r.values.low < 1 / 10000 ∧ -(1 / 10000) < r.values.high :=
      ⟨by linarith [hr.1], by linarith [hr.2]⟩
    refine ⟨0, ?_, ?_⟩
    · rw [operands_divide h, if_pos hzero]
      simp
    · rw [Operation.combine_divide_of_negligible _ _ hz,
        Operation.combine_divide_of_negligible _ _ (by norm_num)]
  · -- The reciprocals of all divisors on one side of zero are an interval, whose ends
    -- are the reciprocals of two operands.
    have reciprocal : ∀ {p q : ℚ}, p ∈ r.operands → q ∈ r.operands → 1 / 10000 ≤ |p| →
        1 / 10000 ≤ |q| → q⁻¹ ≤ right⁻¹ → right⁻¹ ≤ p⁻¹ →
        ∃ e ∈ r.operands, s * Operation.divide.combine left e count
          ≤ s * Operation.divide.combine left right count := by
      intro p q hp hq hp' hq' h₁ h₂
      obtain ⟨i, hi, hle⟩ := exists_end_le s left 0 h₁ h₂
      rw [List.mem_pair] at hi
      rw [Operation.combine_divide_of_le_abs _ _ hz]
      rcases hi with rfl | rfl
      · refine ⟨q, hq, ?_⟩
        rw [Operation.combine_divide_of_le_abs _ _ hq']
        linarith
      · refine ⟨p, hp, ?_⟩
        rw [Operation.combine_divide_of_le_abs _ _ hp']
        linarith
    rcases le_abs'.1 hz with hneg | hpos
    · have hn : r.leastDivisor ≤ -right :=
        leastDivisor_le (by linarith) fun h => neg_mem (hw h)
      have hmem : min r.values.high (-r.leastDivisor) ∈ r.operands := by
        rw [operands_divide h, if_pos (show r.values.low ≤ -r.leastDivisor by linarith [hr.1])]
        simp
      have hle : right ≤ min r.values.high (-r.leastDivisor) := le_min hr.2 (by linarith)
      have hmin : min r.values.high (-r.leastDivisor) ≤ -r.leastDivisor := min_le_right _ _
      have hlow : r.values.low ∈ r.operands := by simp [operands_divide h]
      refine reciprocal hlow hmem (le_abs'.2 (.inl (by linarith [hr.1])))
        (le_abs'.2 (.inl (by linarith))) ?_ ?_
      · exact (inv_le_inv_of_neg (by linarith) (by linarith)).2 hle
      · exact (inv_le_inv_of_neg (by linarith) (by linarith [hr.1])).2 hr.1
    · have hn : r.leastDivisor ≤ right := leastDivisor_le hpos hw
      have hmem : max r.values.low r.leastDivisor ∈ r.operands := by
        rw [operands_divide h, if_pos (hn.trans hr.2)]
        simp
      have hle : max r.values.low r.leastDivisor ≤ right := max_le hr.1 hn
      have hmax : r.leastDivisor ≤ max r.values.low r.leastDivisor := le_max_right _ _
      have hhigh : r.values.high ∈ r.operands := by simp [operands_divide h]
      refine reciprocal hmem hhigh (le_abs'.2 (.inr (by linarith)))
        (le_abs'.2 (.inr (by linarith [hr.2]))) ?_ ?_
      · exact (inv_le_inv₀ (by linarith [hr.2]) (by linarith)).2 hr.2
      · exact (inv_le_inv₀ (by linarith) (by linarith)).2 hle

/-- **An operand moves to one of those that are tried.** -/
theorem exists_operand_le (s : ℚ) {r : LinkRange ℚ} (left count : ℚ) {right : ℚ}
    (hr : r.values.Contains right) (hw : r.isWhole = true → right ∈ wholeNumbers) :
    ∃ e ∈ r.operands, s * r.operation.combine left e count
      ≤ s * r.operation.combine left right count := by
  by_cases h : r.operation = .divide
  · rw [h]
    exact exists_divisor_le s h left count hr hw
  · obtain ⟨a, b, hab⟩ := Operation.exists_affine_right h left count
    simp only [operands_of_ne_divide h, hab]
    exact exists_end_le s a b hr.1 hr.2

end LinkRange

namespace ChainRange

theorem mem_corners {c : ChainRange ℚ} {r : LinkRange ℚ} {x : ℚ} :
    x ∈ c.corners r ↔ ∃ left ∈ [c.values.low, c.values.high],
      ∃ count ∈ [c.counts.low, c.counts.high],
        ∃ right ∈ r.operands, r.operation.combine left right count = x := by
  simp only [corners, List.mem_flatMap, List.mem_map]

theorem corners_ne_nil (c : ChainRange ℚ) (r : LinkRange ℚ) : c.corners r ≠ [] := by
  simp [corners, r.operands_ne_nil]

/-- **Both bounds of a link are corners of it.** -/
theorem mem_corners_of_mem_step {c : ChainRange ℚ} {r : LinkRange ℚ} {x : ℚ}
    (h : x ∈ [(c.step r).values.low, (c.step r).values.high]) : x ∈ c.corners r := by
  have hne := c.corners_ne_nil r
  rw [step, List.mem_pair] at h
  rcases h with rfl | rfl
  · exact (List.min?_eq_some_iff.1 (Bounds.min?_eq_hull_low hne)).1
  · exact (List.max?_eq_some_iff.1 (Bounds.max?_eq_hull_high hne)).1

/-- **A link on its own value.**  What stands in front of a link that is no each operation counts
only by its value, and not by the number of its rolls. -/
theorem step_congr {c d : ChainRange ℚ} {r : LinkRange ℚ}
    (hcounts : r.operation.isEach = true → c.counts = d.counts) (hvalues : c.values = d.values) :
    c.step r = d.step r := by
  cases h : r.operation.isEach with
  | true => rw [step, step, corners, corners, hvalues, hcounts h]
  | false =>
    have hcount : ∀ left right count : ℚ, r.operation.combine left right count =
        r.operation.combine left right 0 := fun left right count =>
      Operation.combine_of_not_isEach h left right count 0
    have hcorners : c.corners r = d.corners r := by
      simp only [corners, hvalues, hcount, List.flatMap_cons, List.flatMap_nil]
    rw [step, step, hcorners]

/-- **A link has a corner below each of its values,** or above it. -/
theorem exists_corner_le (s : ℚ) {c : ChainRange ℚ} {r : LinkRange ℚ} {left count right : ℚ}
    (hl : c.values.Contains left) (hc : c.counts.Contains count)
    (hr : r.values.Contains right) (hw : r.isWhole = true → right ∈ wholeNumbers) :
    ∃ x ∈ c.corners r, s * x ≤ s * r.operation.combine left right count := by
  obtain ⟨right', hright, h₁⟩ := r.exists_operand_le s left count hr hw
  obtain ⟨a, b, hab⟩ := r.operation.exists_affine_count left right'
  obtain ⟨count', hcount, h₂⟩ := exists_end_le s a b hc.1 hc.2
  rw [← hab, ← hab] at h₂
  obtain ⟨a, b, hab⟩ := r.operation.exists_affine_left right' count'
  obtain ⟨left', hleft, h₃⟩ := exists_end_le s a b hl.1 hl.2
  rw [← hab, ← hab] at h₃
  exact ⟨_, mem_corners.2 ⟨left', hleft, count', hcount, right', hright, rfl⟩,
    h₃.trans (h₂.trans h₁)⟩

/-- **The bounds of a link enclose its values.** -/
theorem contains_step {c : ChainRange ℚ} {r : LinkRange ℚ} {left count right : ℚ}
    (hl : c.values.Contains left) (hc : c.counts.Contains count)
    (hr : r.values.Contains right) (hw : r.isWhole = true → right ∈ wholeNumbers) :
    (c.step r).values.Contains (r.operation.combine left right count) := by
  obtain ⟨x, hx, hle⟩ := exists_corner_le 1 hl hc hr hw
  obtain ⟨y, hy, hge⟩ := exists_corner_le (-1) hl hc hr hw
  have hx : (Bounds.hull (c.corners r)).low ≤ x := (Bounds.hull_contains hx).1
  have hy : y ≤ (Bounds.hull (c.corners r)).high := (Bounds.hull_contains hy).2
  exact ⟨by rw [step]; linarith, by rw [step]; linarith⟩

end ChainRange

/-! ### Spans -/

namespace Chain

variable {α : Type} [Scalar α] {custom : CustomDie → Bounds α}

/-- What the bounds of a chain are known from, and those of the links behind it. -/
def span (custom : CustomDie → Bounds α) (c : Chain α) : ChainRange α :=
  (c.links.map (Link.range custom)).foldl ChainRange.step .start

theorem span_head (op : Operation) (p : Pool α) :
    (head op p).span custom = ChainRange.start.step (Link.range custom ⟨op, p⟩) := rfl

theorem span_extend (c : Chain α) (ls : List (Link α)) :
    (c.extend ls).span custom =
      (ls.map (Link.range custom)).foldl ChainRange.step (c.span custom) := by
  rw [span, links_extend, List.map_append, List.foldl_append, span]

theorem span_append (front : Chain α) (op : Operation) (p : Pool α) :
    (front.append op p).span custom = (front.span custom).step (Link.range custom ⟨op, p⟩) :=
  span_extend front [⟨op, p⟩]

theorem span_values (c : Chain α) : (c.span custom).values = c.bounds custom := rfl

theorem span_counts (c : Chain α) : (c.span custom).counts = c.last.pool.counts custom := by
  cases c with
  | head op p => rfl
  | append front op p =>
    rw [span_append]
    rfl

end Chain
end DiceFormula
