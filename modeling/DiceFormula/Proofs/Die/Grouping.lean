/-
# Grouping and bounds

Where a formula has no parentheses, its links are applied from left to right, so what was one
operand becomes several links.  This module says when that leaves the bounds as they are.

The bounds of a link are the least and the greatest of the values at its corners
(`ChainRange.spans_step`).  An operation is an affine function of the value in front, and so are
the links behind it; of an affine function on a set of values the extremes come from those of the
set (`Bounds.Spans.seq_iff`).  So it does not matter whether the extremes are taken after every
link or only once at the end, and two ways to group the same links have the same bounds if they
have the same values:

| operand of | may be | because |
| --- | --- | --- |
| `+` | a sum | `a + (b ± c) = (a + b) ± c` |
| `*` | a product or a quotient | `a * (b * c) = (a * b) * c`, and so for `/` |
| a count | a product or a quotient of one die | `n` times `b * c` is `n` times `b`, times `c` |

No other operation may be regrouped (`Operation.regroups_iff`).  A chain at the head of a chain
needs nothing of this kind, since it is applied first anyway (`Chain.bounds_extend_congr`).
-/

import DiceFormula.Die.Build
import DiceFormula.Proofs.Die.Corner
import Mathlib.Data.Set.Lattice

namespace DiceFormula

variable {custom : CustomDie → Bounds ℚ}

/-! ### Extremes -/

/-- A function of the form `a * x + b`. -/
def Affine (f : ℚ → ℚ) : Prop := ∃ a b : ℚ, ∀ x, f x = a * x + b

namespace Bounds

/-- Both ends of a range. -/
def ends (b : Bounds ℚ) : Set ℚ := {x | x ∈ [b.low, b.high]}

theorem forall_mem_ends {b : Bounds ℚ} {P : ℚ → Prop} :
    (∀ x ∈ b.ends, P x) ↔ P b.low ∧ P b.high := by
  simp [ends]

/-- The ends of the range are the least and the greatest of some values. -/
structure Spans (b : Bounds ℚ) (s : Set ℚ) : Prop where
  low : IsLeast s b.low
  high : IsGreatest s b.high

theorem spans_hull {xs : List ℚ} (h : xs ≠ []) : (hull xs).Spans {x | x ∈ xs} where
  low := List.min?_eq_some_iff.1 (min?_eq_hull_low h)
  high := List.max?_eq_some_iff.1 (max?_eq_hull_high h)

theorem spans_ends {b : Bounds ℚ} (h : b.low ≤ b.high) : b.Spans b.ends where
  low := ⟨List.mem_cons_self, forall_mem_ends.2 ⟨le_rfl, h⟩⟩
  high := ⟨List.mem_cons_of_mem _ List.mem_cons_self, forall_mem_ends.2 ⟨h, le_rfl⟩⟩

namespace Spans

variable {b b' : Bounds ℚ} {s t : Set ℚ}

theorem unique (h : b.Spans s) (h' : b'.Spans s) : b = b' := by
  obtain ⟨low, high⟩ := b
  obtain rfl : low = b'.low := h.low.unique h'.low
  obtain rfl : high = b'.high := h.high.unique h'.high
  rfl

theorem low_le_high (h : b.Spans s) : b.low ≤ b.high := h.low.2 h.high.1

/-- More values that lie between others do not move the ends. -/
theorem iff_of_subset (hst : s ⊆ t) (hlow : ∀ x ∈ t, ∃ y ∈ s, y ≤ x)
    (hhigh : ∀ x ∈ t, ∃ y ∈ s, x ≤ y) : b.Spans s ↔ b.Spans t := by
  constructor
  · rintro ⟨⟨hl, hleast⟩, hh, hgreatest⟩
    refine ⟨⟨hst hl, fun x hx => ?_⟩, hst hh, fun x hx => ?_⟩
    · obtain ⟨y, hy, hle⟩ := hlow x hx
      exact (hleast hy).trans hle
    · obtain ⟨y, hy, hle⟩ := hhigh x hx
      exact hle.trans (hgreatest hy)
  · rintro ⟨⟨hl, hleast⟩, hh, hgreatest⟩
    obtain ⟨y, hy, hyl⟩ := hlow _ hl
    obtain ⟨z, hz, hzh⟩ := hhigh _ hh
    obtain rfl := le_antisymm (hleast (hst hy)) hyl
    obtain rfl := le_antisymm hzh (hgreatest (hst hz))
    exact ⟨⟨hy, fun x hx => hleast (hst hx)⟩, hz, fun x hx => hgreatest (hst hx)⟩

/-- **Affine functions take their extremes at the extremes.** -/
theorem seq_iff {F : Set (ℚ → ℚ)} (hF : ∀ f ∈ F, Affine f) (h : b.Spans s) :
    b'.Spans (F.seq b.ends) ↔ b'.Spans (F.seq s) := by
  have hends : b.ends ⊆ s := forall_mem_ends.2 ⟨h.low.1, h.high.1⟩
  have toEnd (k : ℚ) : ∀ y ∈ F.seq s, ∃ e ∈ F.seq b.ends, k * e ≤ k * y := by
    rintro _ ⟨f, hf, x, hx, rfl⟩
    obtain ⟨p, q, hpq⟩ := hF f hf
    obtain ⟨e, he, hle⟩ := exists_end_le k p q (h.low.2 hx) (h.high.2 hx)
    refine ⟨f e, ⟨f, hf, e, he, rfl⟩, ?_⟩
    show k * f e ≤ k * f x
    rwa [hpq, hpq]
  refine iff_of_subset (Set.seq_mono (Set.Subset.refl F) hends) (fun y hy => ?_) fun y hy => ?_
  · obtain ⟨e, he, hle⟩ := toEnd 1 y hy
    exact ⟨e, he, by linarith⟩
  · obtain ⟨e, he, hle⟩ := toEnd (-1) y hy
    exact ⟨e, he, by linarith⟩

end Spans

/-- **The bounds of a sum are products of the ends,** if no count is below zero. -/
theorem spans_times {counts values : Bounds ℚ} (hcounts : ∀ k ∈ counts.ends, 0 ≤ k)
    (hvalues : values.low ≤ values.high) :
    (counts.times values).Spans ({f | ∃ k ∈ counts.ends, f = (k * ·)}.seq values.ends) := by
  have hbetween : ∀ e ∈ values.ends, values.low ≤ e ∧ e ≤ values.high :=
    forall_mem_ends.2 ⟨⟨le_rfl, hvalues⟩, hvalues, le_rfl⟩
  have hlow : counts.low ∈ counts.ends := List.mem_cons_self
  have hhigh : counts.high ∈ counts.ends := List.mem_cons_of_mem _ List.mem_cons_self
  have corner {k e : ℚ} (hk : k ∈ counts.ends) (he : e ∈ values.ends) :
      k * e ∈ {f | ∃ k ∈ counts.ends, f = (k * ·)}.seq values.ends := ⟨_, ⟨k, hk, rfl⟩, e, he, rfl⟩
  rw [times_rat]
  refine ⟨⟨?_, ?_⟩, ?_, ?_⟩
  · exact min_rec' (· ∈ _) (corner hlow List.mem_cons_self) (corner hhigh List.mem_cons_self)
  · rintro _ ⟨_, ⟨k, hk, rfl⟩, e, he, rfl⟩
    have hle : min (counts.low * values.low) (counts.high * values.low) ≤ k * values.low := by
      rcases List.mem_pair.1 hk with rfl | rfl
      · exact min_le_left _ _
      · exact min_le_right _ _
    exact hle.trans (mul_le_mul_of_nonneg_left (hbetween e he).1 (hcounts k hk))
  · exact max_rec' (· ∈ _) (corner hlow (List.mem_cons_of_mem _ List.mem_cons_self))
      (corner hhigh (List.mem_cons_of_mem _ List.mem_cons_self))
  · rintro _ ⟨_, ⟨k, hk, rfl⟩, e, he, rfl⟩
    have hle : k * values.high ≤ max (counts.low * values.high) (counts.high * values.high) := by
      rcases List.mem_pair.1 hk with rfl | rfl
      · exact le_max_left _ _
      · exact le_max_right _ _
    exact (mul_le_mul_of_nonneg_left (hbetween e he).2 (hcounts k hk)).trans hle

end Bounds

/-! ### Operations that may be regrouped -/

namespace Operation

/-- Whether links with the second operation may be left in the operand of the first. -/
def regroups : Operation → Operation → Bool
  | plus, plus | plus, minus | plus, eachPlus | plus, eachMinus => true
  | multiply, multiply | multiply, divide => true
  | _, _ => false

/-- **What may be regrouped:** first joining the operand to what stands in front, and then a link
to that, is the same as first joining the link to the operand. -/
theorem regroups_iff {op op' : Operation} : op.regroups op' = true ↔
    ∀ left right count right' count' : ℚ,
      op'.combine (op.combine left right count) right' count' =
        op.combine left (op'.combine right right' count') count := by
  constructor
  · intro h left right count right' count'
    cases op with
    | plus =>
      cases op' with
      | plus => exact add_assoc left right right'
      | minus => exact add_sub_assoc left right right'
      | eachPlus => exact add_assoc left right (count' * right')
      | eachMinus => exact add_sub_assoc left right (count' * right')
      | multiply | divide => cases h
    | multiply =>
      cases op' with
      | multiply => exact mul_assoc left right right'
      | divide =>
        rw [combine, combine, combine, combine]
        split_ifs
        · exact (mul_zero left).symm
        · exact mul_div_assoc left right right'
      | plus | minus | eachPlus | eachMinus => cases h
    | minus | divide | eachPlus | eachMinus => cases op' <;> cases h
  · intro h
    have hfive := h 2 3 7 5 11
    revert hfive
    cases op <;> cases op' <;> decide +kernel

theorem ne_divide_of_regroups {op op' : Operation} (h : op.regroups op' = true) :
    op ≠ divide := by
  rintro rfl
  cases h

theorem isEach_of_multiply_regroups {op : Operation} (h : multiply.regroups op = true) :
    op.isEach = false := by
  cases op with
  | plus | minus | multiply | divide => rfl
  | eachPlus | eachMinus => cases h

end Operation

/-! ### Links -/

namespace ChainRange

variable {c d : ChainRange ℚ} {r : LinkRange ℚ} {F : Set (ℚ → ℚ)}

/-- What a link makes of the value in front of it, at each of its other corners. -/
def moves (c : ChainRange ℚ) (r : LinkRange ℚ) : Set (ℚ → ℚ) :=
  {f | ∃ count ∈ c.counts.ends, ∃ right ∈ r.operands,
    f = fun left => r.operation.combine left right count}

/-- What an operation makes of its operand, at each of the corners in front. -/
def takes (c : ChainRange ℚ) (op : Operation) : Set (ℚ → ℚ) :=
  {f | ∃ left ∈ c.values.ends, ∃ count ∈ c.counts.ends,
    f = fun right => op.combine left right count}

theorem affine_moves : ∀ f ∈ c.moves r, Affine f := by
  rintro _ ⟨count, -, right, -, rfl⟩
  exact r.operation.exists_affine_left right count

theorem affine_takes {op : Operation} (h : op ≠ .divide) : ∀ f ∈ c.takes op, Affine f := by
  rintro _ ⟨left, -, count, -, rfl⟩
  exact Operation.exists_affine_right h left count

/-- **The bounds of a link are the extremes of its corners.** -/
theorem spans_step (c : ChainRange ℚ) (r : LinkRange ℚ) :
    (c.step r).values.Spans ((c.moves r).seq c.values.ends) := by
  have hcorners : {x | x ∈ c.corners r} = (c.moves r).seq c.values.ends := by
    ext x
    rw [Set.mem_ofPred_eq, mem_corners]
    constructor
    · rintro ⟨left, hleft, count, hcount, right, hright, rfl⟩
      exact ⟨_, ⟨count, hcount, right, hright, rfl⟩, left, hleft, rfl⟩
    · rintro ⟨_, ⟨count, hcount, right, hright, rfl⟩, left, hleft, rfl⟩
      exact ⟨left, hleft, count, hcount, right, hright, rfl⟩
  rw [← hcorners]
  exact Bounds.spans_hull (c.corners_ne_nil r)

/-- The same from the side of the operand.  Division tries other operands than the ends. -/
theorem spans_step_takes (h : r.operation ≠ .divide) :
    (c.step r).values.Spans ((c.takes r.operation).seq r.values.ends) := by
  have hsides : (c.moves r).seq c.values.ends = (c.takes r.operation).seq r.values.ends := by
    ext x
    constructor
    · rintro ⟨_, ⟨count, hcount, right, hright, rfl⟩, left, hleft, rfl⟩
      rw [LinkRange.operands_of_ne_divide h] at hright
      exact ⟨_, ⟨left, hleft, count, hcount, rfl⟩, right, hright, rfl⟩
    · rintro ⟨_, ⟨left, hleft, count, hcount, rfl⟩, right, hright, rfl⟩
      refine ⟨_, ⟨count, hcount, right, ?_, rfl⟩, left, hleft, rfl⟩
      rw [LinkRange.operands_of_ne_divide h]
      exact hright
  rw [← hsides]
  exact c.spans_step r

theorem moves_congr (h : r.operation.isEach = true → c.counts = d.counts) :
    c.moves r = d.moves r := by
  cases heach : r.operation.isEach with
  | true => rw [moves, moves, h heach]
  | false =>
    have hcount (left right count : ℚ) : r.operation.combine left right count =
        r.operation.combine left right 0 := Operation.combine_of_not_isEach heach left right count 0
    simp only [moves, hcount, Bounds.ends, Set.mem_ofPred_eq, List.mem_pair, exists_eq_or_imp,
      exists_eq_left, or_self]

/-- **A link keeps extremes that come from other values,** if it may come first or last: `d` has
the extremes of what the functions `F` make of the values of `c`, and so it is one link later. -/
theorem spans_step_seq (hF : ∀ f ∈ F, Affine f)
    (hcounts : r.operation.isEach = true → c.counts = d.counts)
    (hcomm : ∀ f ∈ F, ∀ left right count : ℚ, r.operation.combine (f left) right count =
      f (r.operation.combine left right count))
    (h : d.values.Spans (F.seq c.values.ends)) :
    (d.step r).values.Spans (F.seq (c.step r).values.ends) := by
  have hswap : (d.moves r).seq (F.seq c.values.ends) = F.seq ((c.moves r).seq c.values.ends) := by
    rw [moves_congr hcounts]
    ext x
    constructor
    · rintro ⟨_, ⟨count, hcount, right, hright, rfl⟩, _, ⟨f, hf, left, hleft, rfl⟩, rfl⟩
      exact ⟨f, hf, _, ⟨_, ⟨count, hcount, right, hright, rfl⟩, left, hleft, rfl⟩,
        (hcomm f hf left right count).symm⟩
    · rintro ⟨f, hf, _, ⟨_, ⟨count, hcount, right, hright, rfl⟩, left, hleft, rfl⟩, rfl⟩
      exact ⟨_, ⟨count, hcount, right, hright, rfl⟩, _, ⟨f, hf, left, hleft, rfl⟩,
        hcomm f hf left right count⟩
  have hcorners : (d.step r).values.Spans ((d.moves r).seq (F.seq c.values.ends)) :=
    (h.seq_iff affine_moves).1 (d.spans_step r)
  rw [hswap] at hcorners
  exact ((c.spans_step r).seq_iff hF).2 hcorners

/-- **Links keep extremes that come from other values.** -/
theorem spans_foldl_seq (hF : ∀ f ∈ F, Affine f) {ls : List (Link ℚ)} {c d : ChainRange ℚ}
    (hcounts : ∀ l ∈ ls.head?, l.operation.isEach = true → c.counts = d.counts)
    (hcomm : ∀ l ∈ ls, ∀ f ∈ F, ∀ left right count : ℚ,
      l.operation.combine (f left) right count = f (l.operation.combine left right count))
    (h : d.values.Spans (F.seq c.values.ends)) :
    ((ls.map (Link.range custom)).foldl step d).values.Spans
      (F.seq ((ls.map (Link.range custom)).foldl step c).values.ends) := by
  induction ls generalizing c d with
  | nil => exact h
  | cons l ls ih =>
    obtain ⟨hl, hls⟩ := List.forall_mem_cons.1 hcomm
    have hstep := spans_step_seq (r := l.range custom) hF (hcounts l rfl) hl h
    exact ih (fun _ _ _ => rfl) hls hstep

/-- A link takes from its pool the bounds, and whether it is whole. -/
theorem values_step_congr {r' : LinkRange ℚ} (hop : r.operation = r'.operation)
    (hvalues : r.values = r'.values) (hwhole : r.isWhole = r'.isWhole) :
    (c.step r).values = (c.step r').values := by
  have hoperands : r.operands = r'.operands := by
    rw [LinkRange.operands, LinkRange.operands, hop, hvalues, hwhole]
  rw [step, step, corners, corners, hop, hoperands]

end ChainRange

/-! ### Chains -/

namespace Chain

/-- The bounds of a chain are in order, whatever it is made of: they are extremes. -/
theorem low_le_high (custom : CustomDie → Bounds ℚ) (c : Chain ℚ) :
    (c.bounds custom).low ≤ (c.bounds custom).high := by
  cases c with
  | head op p => exact (ChainRange.spans_step _ _).low_le_high
  | append front op p =>
    rw [← span_values, span_append]
    exact (ChainRange.spans_step _ _).low_le_high

/-- The chain of a pool has the bounds of the pool, if they are in order. -/
theorem bounds_ofPool {p : Pool ℚ} (h : (p.bounds custom).low ≤ (p.bounds custom).high) :
    (ofPool p).bounds custom = p.bounds custom := by
  have htakes : (ChainRange.start.takes .plus : Set (ℚ → ℚ)) = {fun right => right} := by
    ext f
    simp [ChainRange.takes, ChainRange.start, Bounds.ends, Bounds.single, Operation.combine,
      Scalar.ofInt_rat]
  have hspans : ((ofPool p).bounds custom).Spans ((ChainRange.start.takes .plus).seq
      (p.bounds custom).ends) :=
    ChainRange.spans_step_takes (r := Link.range custom ⟨.plus, p⟩) (by rintro ⟨⟩)
  rw [htakes, Set.singleton_seq, Set.image_id'] at hspans
  exact hspans.unique (Bounds.spans_ends h)

/-- **Links behind the same bounds** end at the same bounds, unless the first of them counts
different numbers of rolls in front. -/
theorem bounds_extend_congr {c d : Chain ℚ} {ls : List (Link ℚ)}
    (hvalues : c.bounds custom = d.bounds custom)
    (hcounts : ∀ l ∈ ls.head?, l.operation.isEach = true →
      c.last.pool.counts custom = d.last.pool.counts custom) :
    (c.extend ls).bounds custom = (d.extend ls).bounds custom := by
  rw [← span_values, ← span_values, span_extend, span_extend]
  cases ls with
  | nil => exact hvalues
  | cons l ls =>
    have hstep : (c.span custom).step (l.range custom) = (d.span custom).step (l.range custom) :=
      ChainRange.step_congr (fun h => by rw [span_counts, span_counts, hcounts l rfl h]) hvalues
    rw [List.map_cons, List.foldl_cons, List.foldl_cons, hstep]

/-- **A chain as an operand.**  Its links may be left behind the operation, if each of them may be
regrouped with it. -/
theorem bounds_append_extend {f : Chain ℚ} {op : Operation} {p q : Pool ℚ} {ls : List (Link ℚ)}
    (hq : (q.bounds custom).low ≤ (q.bounds custom).high)
    (hls : ∀ l ∈ ls, op.regroups l.operation = true)
    (hbounds : p.bounds custom = ((ofPool q).extend ls).bounds custom)
    (hwhole : p.isWhole = ((ofPool q).extend ls).isWhole) :
    ((f.append op q).extend ls).bounds custom = (f.append op p).bounds custom := by
  have hhead : (ofPool q).bounds custom = q.bounds custom := bounds_ofPool hq
  by_cases hop : op = .divide
  · -- Nothing may be regrouped with a division, so there is one link.
    cases ls with
    | nil =>
      have hvalues : p.bounds custom = q.bounds custom := hbounds.trans hhead
      have hwhole : p.isWhole = q.isWhole := hwhole
      rw [← span_values, ← span_values]
      show ((f.append op q).span custom).values = _
      rw [span_append, span_append]
      exact ChainRange.values_step_congr rfl hvalues.symm hwhole.symm
    | cons l ls => exact absurd hop (Operation.ne_divide_of_regroups (hls l List.mem_cons_self))
  · have hflat : ((f.append op q).span custom).values.Spans (((f.span custom).takes op).seq
        ((ofPool q).span custom).values.ends) := by
      rw [span_append, span_values, hhead]
      exact ChainRange.spans_step_takes hop
    have hlinks : (((f.append op q).extend ls).bounds custom).Spans
        (((f.span custom).takes op).seq (p.bounds custom).ends) := by
      rw [hbounds, ← span_values, ← span_values, span_extend, span_extend]
      refine ChainRange.spans_foldl_seq (ChainRange.affine_takes hop) ?_ ?_ hflat
      · exact fun l _ _ => by rw [span_counts, span_counts]; rfl
      · rintro l hl _ ⟨left, -, count, -, rfl⟩ right right' count'
        exact Operation.regroups_iff.1 (hls l hl) left right count right' count'
    refine hlinks.unique ?_
    rw [← span_values, span_append]
    exact ChainRange.spans_step_takes hop

/-- **A product that is rolled several times.**  The count may be left to the first die, if the
other links may be regrouped with a multiplication. -/
theorem bounds_counted_extend {count value d : Die ℚ} {ls : List (Link ℚ)}
    (hcount : ∀ k ∈ (count.bounds custom).trunc.ends, 0 ≤ k)
    (hd : (d.bounds custom).low ≤ (d.bounds custom).high)
    (hls : ∀ l ∈ ls, Operation.multiply.regroups l.operation = true)
    (hvalue : value.bounds custom = ((ofDie d).extend ls).bounds custom) :
    ((ofPool (.counted count d)).extend ls).bounds custom =
      (Pool.counted count value).bounds custom := by
  let counts := (count.bounds custom).trunc
  let F : Set (ℚ → ℚ) := {f | ∃ k ∈ counts.ends, f = (k * ·)}
  have hF : ∀ f ∈ F, Affine f := by
    rintro _ ⟨k, -, rfl⟩
    exact ⟨k, 0, fun x => (add_zero _).symm⟩
  have htimes (v : Die ℚ) : (Pool.counted count v).bounds custom = counts.times (v.bounds custom) := by
    rw [Pool.bounds, Pool.counts, Pool.valueBounds]
  have hdice : ((Pool.counted count d).bounds custom).Spans (F.seq (d.bounds custom).ends) := by
    rw [htimes]
    exact Bounds.spans_times hcount hd
  have hflat : ((ofPool (.counted count d)).span custom).values.Spans
      (F.seq ((ofDie d).span custom).values.ends) := by
    have hsingle : (ofDie d).bounds custom = d.bounds custom := by
      have hpool : (Pool.single d).bounds custom = d.bounds custom := Pool.bounds_single custom d
      rw [ofDie, bounds_ofPool (by rwa [hpool]), hpool]
    rw [span_values, span_values, bounds_ofPool hdice.low_le_high, hsingle]
    exact hdice
  have hlinks : (((ofPool (.counted count d)).extend ls).bounds custom).Spans
      (F.seq (value.bounds custom).ends) := by
    rw [hvalue, ← span_values, ← span_values, span_extend, span_extend]
    refine ChainRange.spans_foldl_seq hF ?_ ?_ hflat
    · intro l hl heach
      rw [Operation.isEach_of_multiply_regroups (hls l (List.mem_of_mem_head? hl))] at heach
      cases heach
    · rintro l hl _ ⟨k, -, rfl⟩ left right count'
      exact Operation.regroups_iff.1 (hls l hl) k left 0 right count'
  refine hlinks.unique ?_
  rw [htimes]
  refine Bounds.spans_times hcount ?_
  rw [hvalue]
  exact low_le_high custom _

end Chain
end DiceFormula
