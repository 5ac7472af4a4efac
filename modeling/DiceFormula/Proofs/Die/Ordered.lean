/-
# When bounds are in order

In double precision the bounds of a die may be infinite, though all its fixed values are finite,
and what is computed from infinities may be no number.  A value in front of a link and an operand
of it join if nothing like that can happen to them:

| operation | numbers that join |
| --- | --- |
| `+`, `-`, `/` | one of them is finite |
| `*` | both are finite, or neither is zero |
| each `+`, each `-` | the one in front is finite, or the count times the other |

A die is anchored if at every link inside some end of the front joins some end of the pool, for
the least number of rolls in front, and no pool is rolled at least infinitely often.  The bounds of anchored dice are in order
(`bounds_ordered`), though they may be infinite.

The reason is that every link then has a corner whose value is a number.  The hull passes over
corners that are no numbers, and is in order if there is another (`Bounds.hull_ordered_iff`).
Without an anchor there may be none, and then the bounds are those of the empty hull, the wrong
way round (`not_bounds_ordered_large_zero`).
-/

import DiceFormula.Proofs.Die.Checked
import DiceFormula.Proofs.Die.Corner
import DiceFormula.Proofs.Expression.Normalisation
import DiceFormula.Proofs.Number.Monotone

namespace DiceFormula

open Scalar

namespace Bounds

/-- The lower bound is not above the upper one, and both are numbers. -/
def Ordered (b : Bounds Float) : Prop := b.low ≤ b.high

theorem Ordered.le_self_of_mem {b : Bounds Float} (h : b.Ordered) :
    ∀ x ∈ [b.low, b.high], x ≤ x :=
  List.forall_mem_cons.2 ⟨le_self_left h, List.forall_mem_singleton.2 (le_self_right h)⟩

theorem Ordered.not_nan {b : Bounds Float} (h : b.Ordered) :
    exact b.low ≠ .nan ∧ exact b.high ≠ .nan :=
  ⟨le_self_iff_exact_ne_nan.1 (le_self_left h), le_self_iff_exact_ne_nan.1 (le_self_right h)⟩

/-- **A hull is in order just if there is a number in it.** -/
theorem hull_ordered_iff {xs : List Float} : (hull xs).Ordered ↔ ∃ x ∈ xs, x ≤ x := by
  cases hnumbers : xs.filter fun x => x ≤ x with
  | nil =>
    have hempty : ¬ (Scalar.emptyHull (α := Float)).1 ≤ Scalar.emptyHull.2 := by decide +kernel
    rw [Ordered, hull, hnumbers]
    refine iff_of_false hempty ?_
    rintro ⟨x, hx, hnumber⟩
    have hmem : x ∈ xs.filter fun x => x ≤ x := List.mem_filter.2 ⟨hx, decide_eq_true hnumber⟩
    rw [hnumbers] at hmem
    exact absurd hmem List.not_mem_nil
  | cons y ys =>
    have hmem : y ∈ xs.filter fun x => x ≤ x := by
      rw [hnumbers]
      exact List.mem_cons_self
    obtain ⟨hy, hnumber⟩ := List.mem_filter.1 hmem
    have hnumber := of_decide_eq_true hnumber
    rw [Ordered, hull, hnumbers]
    exact iff_of_true (Scalar.le_trans (foldl_lesser_le hnumber ys) (le_foldl_greater hnumber ys))
      ⟨y, hy, hnumber⟩

/-- **A pool keeps its values in order,** if the least number of dice is positive and finite. -/
theorem times_ordered {counts values : Bounds Float} {k : ℚ}
    (hcount : exact counts.low = .finite false k) (hk : 0 < k) (hvalues : values.Ordered) :
    (counts.times values).Ordered := by
  have hmul := mul_le_mul_of_pos hcount hk hvalues
  have hlow := lesser_le (le_self_left hmul) (counts.high * values.low)
  have hhigh := le_greater (le_self_right hmul) (counts.high * values.high)
  exact Scalar.le_trans (Scalar.le_trans hlow hmul) hhigh

end Bounds

/-! ### Links -/

namespace Operation

/-- A divisor that is not negligible is not zero. -/
theorem exact_ne_zero {x : Float} (h : ¬ isNegligible x = true) (b : Bool) :
    exact x ≠ .finite b 0 := by
  intro hx
  have hzero : exact (ofInt 0 : Float) = .finite false 0 := by
    have h := exact_toFloat false (n := 0) (by norm_num)
    rwa [Nat.cast_zero] at h
  have hplace : place? x = place? (ofInt 0 : Float) := by
    rw [place?, place?, hx, hzero, Exact.place?, Exact.place?, withSign_zero, withSign_zero]
  have hlow : (negThreshold : Float) < ofInt 0 := by decide +kernel
  have hhigh : ofInt 0 < (threshold : Float) := by decide +kernel
  rw [lt_iff_place, ← hplace, ← lt_iff_place] at hlow hhigh
  exact h (by rw [isNegligible, decide_eq_true hlow, decide_eq_true hhigh]; rfl)

/-- A value in front and an operand whose corner is a number, if they are numbers. -/
def Joins (left right count : Float) : Operation → Prop
  | plus | minus | divide => isFinite left = true ∨ isFinite right = true
  | multiply => (isFinite left = true ∧ isFinite right = true) ∨
      (∀ b, exact left ≠ .finite b 0) ∧ ∀ b, exact right ≠ .finite b 0
  | eachPlus | eachMinus => isFinite left = true ∨ isFinite (count * right) = true

/-- **An operation on numbers that join gives a number.**  The count is positive and finite. -/
theorem le_self_combine {op : Operation} {left right count : Float} {k : ℚ}
    (hleft : left ≤ left) (hright : right ≤ right) (h : op.Joins left right count)
    (hcount : exact count = .finite false k) (hk : 0 < k) :
    op.combine left right count ≤ op.combine left right count := by
  cases op with
  | plus => exact le_self_add hleft hright h
  | minus => exact le_self_sub hleft hright h
  | multiply => exact le_self_mul hleft hright h
  | divide =>
    rw [combine]
    split_ifs with hnegligible
    · exact ofInt_le_ofInt le_rfl
    · exact le_self_div hleft hright h (exact_ne_zero hnegligible)
  | eachPlus => exact le_self_add hleft (mul_le_mul_of_pos hcount hk hright) h
  | eachMinus => exact le_self_sub hleft (mul_le_mul_of_pos hcount hk hright) h

end Operation

/-- The bounds of a pool are among the operands that are tried. -/
theorem LinkRange.mem_operands_of_mem_ends (r : LinkRange Float) {x : Float}
    (h : x ∈ [r.values.low, r.values.high]) : x ∈ r.operands := by
  rw [operands]
  dsimp only
  split
  · exact List.mem_append_left _ (List.mem_append_left _ (List.mem_append_left _ h))
  · exact h

namespace ChainRange

/-- Some end of the front joins some end of the pool of a link.  The count is the least one, whose
products are finite if any are. -/
def Joins (c : ChainRange Float) (r : LinkRange Float) : Prop :=
  ∃ left ∈ [c.values.low, c.values.high], ∃ right ∈ [r.values.low, r.values.high],
    r.operation.Joins left right c.counts.low

/-- **A link keeps bounds in order.** -/
theorem step_ordered {c : ChainRange Float} {r : LinkRange Float} {k : ℚ}
    (hcount : exact c.counts.low = .finite false k) (hk : 0 < k) (hfront : c.values.Ordered)
    (hvalues : r.values.Ordered) (hjoin : c.Joins r) : (c.step r).values.Ordered := by
  obtain ⟨left, hleft, right, hright, hjoins⟩ := hjoin
  have hnumber := Operation.le_self_combine (hfront.le_self_of_mem left hleft)
    (hvalues.le_self_of_mem right hright) hjoins hcount hk
  have hoperand := r.mem_operands_of_mem_ends hright
  refine Bounds.hull_ordered_iff.2 ⟨_, ?_, hnumber⟩
  exact List.mem_flatMap.2 ⟨left, hleft, List.mem_flatMap.2
    ⟨c.counts.low, List.mem_cons_self, List.mem_map_of_mem hoperand⟩⟩

end ChainRange

/-! ### Dice -/

mutual

/-- At every link inside a die, an end of the front joins an end of the pool; no pool is rolled at
least infinitely often. -/
def Die.Anchored : Die Float → Prop
  | .fixed _ | .uniform _ | .custom _ => True
  | .pool p => p.Anchored
  | .link c | .chain c => c.Anchored

@[inherit_doc Die.Anchored]
def Pool.Anchored : Pool Float → Prop
  | .single value => value.Anchored
  | .counted count value => isFinite (count.bounds noCustom).low = true ∧ value.Anchored

@[inherit_doc Die.Anchored]
def Chain.Anchored : Chain Float → Prop
  | .head op p => p.Anchored ∧ ChainRange.start.Joins (Link.range noCustom ⟨op, p⟩)
  | .append front op p =>
    front.Anchored ∧ p.Anchored ∧ (front.span noCustom).Joins (Link.range noCustom ⟨op, p⟩)

end

theorem Scalar.exact_one : exact (ofInt 1 : Float) = .finite false 1 := by
  have h := exact_toFloat false (n := 1) (by norm_num)
  rwa [Nat.cast_one] at h

theorem Scalar.pos_of_not_lt_one {x : Float} {a : Bool} {u : ℚ} (hx : exact x = .finite a u)
    (h : ¬ x < ofInt 1) : a = false ∧ 0 < u := by
  have hu := (isDouble_of_exact hx).1
  have hone : isFinite (ofInt 1 : Float) = true := isFinite_iff.2 ⟨_, _, exact_one⟩
  have hle := (Scalar.le_or_lt (le_self_of_isFinite hone)
    (le_self_of_isFinite (isFinite_iff.2 ⟨a, u, hx⟩))).resolve_right h
  obtain ⟨p, hp, q, hq, hpq⟩ := le_iff_place.1 hle
  rw [place?, exact_one] at hp
  rw [place?, hx] at hq
  cases hp
  cases hq
  rw [Place.of_le_of] at hpq
  cases a with
  | false => exact ⟨rfl, one_pos.trans_le hpq⟩
  | true =>
    rw [withSign, withSign, if_pos rfl, if_neg Bool.false_ne_true] at hpq
    linarith

/-- **The least number of dice is positive and finite.** -/
theorem Pool.Checked.exists_least_count {p : Pool Float} (hp : p.Checked) (ha : p.Anchored) :
    ∃ k, exact (p.counts noCustom).low = .finite false k ∧ 0 < k := by
  cases hp with
  | single hv =>
    rw [Pool.counts]
    exact ⟨1, exact_one, one_pos⟩
  | counted hc hv h =>
    obtain ⟨hleast, rfl⟩ := Pool.ofCount_eq_ok_iff.1 h
    rw [Pool.Anchored] at ha
    obtain ⟨a, u, hlow⟩ := isFinite_iff.1 ha.1
    have htrunc := exact_trunc hlow
    obtain ⟨rfl, hpos⟩ := pos_of_not_lt_one htrunc hleast
    rw [Pool.counts]
    exact ⟨_, htrunc, hpos⟩

theorem Chain.Checked.last {c : Chain Float} (hc : c.Checked) (ha : c.Anchored) :
    c.last.pool.Checked ∧ c.last.pool.Anchored := by
  cases hc with
  | head op hp =>
    rw [Chain.Anchored] at ha
    exact ⟨hp, ha.1⟩
  | append op hf hp =>
    rw [Chain.Anchored] at ha
    exact ⟨hp, ha.2.1⟩

mutual

/-- The bounds of an anchored die are in order. -/
theorem Die.Checked.ordered : ∀ {d : Die Float}, d.Checked → d.Anchored →
    (d.bounds noCustom).Ordered
  | _, .fixed h, _ => by
    rw [Die.ofFixed_eq_ok h, Die.bounds]
    exact le_self_of_isFinite (Die.isFinite_of_ofFixed h)
  | _, .uniform u, _ => by
    rw [Die.bounds]
    exact ofInt_le_ofInt u.min_le_max
  | _, .pool hp, ha => by
    rw [Die.Anchored] at ha
    rw [Die.bounds_pool]
    exact Pool.Checked.ordered hp ha
  | _, .link hc, ha => by
    rw [Die.Anchored] at ha
    rw [Die.bounds_link]
    exact Chain.Checked.ordered hc ha
  | _, .chain hc, ha => by
    rw [Die.Anchored] at ha
    rw [Die.bounds_chain]
    exact Chain.Checked.ordered hc ha

@[inherit_doc Die.Checked.ordered]
theorem Pool.Checked.ordered : ∀ {p : Pool Float}, p.Checked → p.Anchored →
    (p.bounds noCustom).Ordered
  | _, .single hv, ha => by
    obtain ⟨k, hcount, hk⟩ := (Pool.Checked.single hv).exists_least_count ha
    rw [Pool.Anchored] at ha
    refine Bounds.times_ordered hcount hk ?_
    rw [Pool.valueBounds]
    exact Die.Checked.ordered hv ha
  | _, .counted hc hv h, ha => by
    obtain ⟨k, hcount, hk⟩ := (Pool.Checked.counted hc hv h).exists_least_count ha
    obtain rfl := (Pool.ofCount_eq_ok_iff.1 h).2
    rw [Pool.Anchored] at ha
    refine Bounds.times_ordered hcount hk ?_
    rw [Pool.valueBounds]
    exact Die.Checked.ordered hv ha.2

@[inherit_doc Die.Checked.ordered]
theorem Chain.Checked.ordered : ∀ {c : Chain Float}, c.Checked → c.Anchored →
    (c.bounds noCustom).Ordered
  | _, .head op hp, ha => by
    rw [Chain.Anchored] at ha
    have hzero : (ChainRange.start (α := Float)).values.Ordered := ofInt_le_ofInt le_rfl
    exact ChainRange.step_ordered (r := Link.range noCustom ⟨op, _⟩) exact_one one_pos hzero
      (Pool.Checked.ordered hp ha.1) ha.2
  | _, .append op hf hp, ha => by
    rw [Chain.Anchored] at ha
    obtain ⟨haf, hap, hjoin⟩ := ha
    obtain ⟨hlast, halast⟩ := hf.last haf
    obtain ⟨k, hcount, hk⟩ := hlast.exists_least_count halast
    rw [← Chain.span_counts] at hcount
    rw [← Chain.span_values]
    rw [Chain.span_append]
    exact ChainRange.step_ordered hcount hk (Chain.Checked.ordered hf haf)
      (Pool.Checked.ordered hp hap) hjoin

end

/-! ### Accepted expressions -/

theorem Pool.IsNode.checked {p : Pool Float} (h : p.IsNode) : p.Checked := by
  cases h with
  | fixed hx => exact .single (.fixed (if_pos hx))
  | uniform u => exact .single (.uniform u)
  | times hn hone u =>
    refine .counted (.fixed (if_pos hn)) (.uniform u) (Pool.ofCount_eq_ok_iff.2 ⟨?_, rfl⟩)
    rw [Die.bounds]
    exact hone
  | dice hok => exact .counted (.uniform _) (.uniform _) hok

theorem Chain.checked_of_links : ∀ {c : Chain Float}, (∀ l ∈ c.links, l.pool.Checked) → c.Checked
  | .head op p, h => .head op (h _ (List.mem_singleton_self _))
  | .append front op p, h => by
    rw [links_append, List.forall_mem_append] at h
    exact .append op (checked_of_links h.1) (h.2 _ (List.mem_singleton_self _))

/-- **What is parsed is checked.** -/
theorem Chain.checked_of_parse {text : String} {c : Chain Float} (h : Chain.parse text = .ok c) :
    c.Checked :=
  checked_of_links fun l hl => ((isNode_of_parse h).2 l hl).checked

/-- **The bounds of dice are in order,** if the dice were built or parsed and infinities do not
meet inside.  Neither bound is then no number, though both may be infinite. -/
theorem bounds_ordered {d : Die Float}
    (h : d.Checked ∨ ∃ text c, Chain.parse text = .ok c ∧ d = .chain c) (ha : d.Anchored) :
    (d.bounds noCustom).low ≤ (d.bounds noCustom).high ∧
      exact (d.bounds noCustom).low ≠ .nan ∧ exact (d.bounds noCustom).high ≠ .nan := by
  have hchecked : d.Checked := by
    rcases h with h | ⟨text, c, hc, rfl⟩
    · exact h
    · exact .chain (Chain.checked_of_parse hc)
  have hordered := hchecked.ordered ha
  exact ⟨hordered, hordered.not_nan⟩

/-- The chain of a die that always shows `10 ^ 307`, multiplied by a hundred. -/
def Chain.large : Chain Float :=
  .append (.head .plus (.single (.fixed (ofDecimal ⟨false, 10 ^ 307, 0⟩)))) .multiply
    (.single (.ofInt 100))

theorem Chain.large_checked : large.Checked := by
  have hfinite : isFinite (ofDecimal ⟨false, 10 ^ 307, 0⟩ : Float) = true := by decide +kernel
  exact .append .multiply (.head .plus (.single (.fixed (if_pos hfinite))))
    (.single (.fixed (if_pos (by decide +kernel))))

/-- The hypotheses of `bounds_ordered` are satisfiable, with a chain that goes on from an infinite
front. -/
theorem bounds_ordered_large :
    let d : Die Float := .chain (Chain.large.apply .minus (.ofInt 1))
    exact (d.bounds noCustom).low = .infinite false ∧
      (d.bounds noCustom).low ≤ (d.bounds noCustom).high := by
  intro d
  have hchecked : d.Checked :=
    .chain (.append .minus Chain.large_checked (.single (.fixed (if_pos (by decide +kernel)))))
  have hanchored : d.Anchored := by
    refine ⟨⟨⟨trivial, ?_⟩, trivial, ?_⟩, trivial, ?_⟩
    · exact ⟨_, List.mem_cons_self, _, List.mem_cons_self, .inl (by decide +kernel)⟩
    · exact ⟨_, List.mem_cons_self, _, List.mem_cons_self, .inl (by decide +kernel)⟩
    · exact ⟨_, List.mem_cons_self, _, List.mem_cons_self, .inr (by decide +kernel)⟩
  exact ⟨by decide +kernel, (bounds_ordered (.inl hchecked) hanchored).1⟩

/-- **Infinities may meet.**  Multiplied by zero once more, all corners are `∞ * 0`, and the
bounds are those of the empty hull. -/
theorem not_bounds_ordered_large_zero :
    ∃ c : Chain Float, c.Checked ∧ c = Chain.large.apply .multiply (.ofInt 0) ∧
      ¬ (c.bounds noCustom).low ≤ (c.bounds noCustom).high ∧
      exact (c.bounds noCustom).low = .infinite false ∧
      exact (c.bounds noCustom).high = .infinite true := by
  refine ⟨_, ?_, rfl, by decide +kernel, by decide +kernel, by decide +kernel⟩
  exact .append .multiply Chain.large_checked (.single (.fixed (if_pos (by decide +kernel))))

end DiceFormula
