/-
# Whole bounds

A die that promises whole rolls has whole bounds as well (`Die.bounds_whole`), so both what it rolls
and the range that it names are integers (`Die.whole_of_isWhole`).

The promise looks at the values of pools and at the operations of links, and passes over counts.  It
need not look at them, since the number of dice is an integer part: a count may be a fraction, or a
custom die, and still multiplies whole values by whole numbers.  Without a division the operands that
are tried for a link are the two ends of its pool, so the values at its corners are whole, and its
bounds are two of these.
-/

import DiceFormula.Proofs.Die.Corner
import DiceFormula.Proofs.Die.Enclosure

namespace DiceFormula

variable {custom : CustomDie → Bounds ℚ}

/-- A range with whole ends. -/
structure Bounds.Whole (b : Bounds ℚ) : Prop where
  low : b.low ∈ wholeNumbers
  high : b.high ∈ wholeNumbers

namespace Bounds

theorem whole_single {x : ℚ} (h : x ∈ wholeNumbers) : (single x).Whole := ⟨h, h⟩

theorem whole_trunc (b : Bounds ℚ) : b.trunc.Whole :=
  ⟨Scalar.trunc_mem_wholeNumbers b.low, Scalar.trunc_mem_wholeNumbers b.high⟩

theorem Whole.mem {b : Bounds ℚ} (h : b.Whole) {x : ℚ} (hx : x ∈ [b.low, b.high]) :
    x ∈ wholeNumbers := by
  rcases List.mem_pair.1 hx with rfl | rfl
  · exact h.low
  · exact h.high

theorem Whole.times {counts values : Bounds ℚ} (hc : counts.Whole) (hv : values.Whole) :
    (counts.times values).Whole := by
  rw [times_rat]
  exact ⟨min_rec' (· ∈ wholeNumbers) (mul_mem hc.low hv.low) (mul_mem hc.high hv.low),
    max_rec' (· ∈ wholeNumbers) (mul_mem hc.low hv.high) (mul_mem hc.high hv.high)⟩

end Bounds

/-- A count has whole bounds whatever it rolls. -/
theorem Pool.counts_whole (custom : CustomDie → Bounds ℚ) (p : Pool ℚ) :
    (p.counts custom).Whole := by
  cases p with
  | single value =>
    rw [counts]
    exact Bounds.whole_single (intCast_mem_wholeNumbers 1)
  | counted count value =>
    rw [counts]
    exact Bounds.whole_trunc _

/-- **A link without division keeps bounds whole.** -/
theorem ChainRange.whole_step {c : ChainRange ℚ} {r : LinkRange ℚ} (hvalues : c.values.Whole)
    (hcounts : c.counts.Whole) (hop : r.operation ≠ .divide) (hr : r.values.Whole) :
    (c.step r).values.Whole := by
  have hcorners : ∀ x ∈ c.corners r, x ∈ wholeNumbers := by
    intro x hx
    obtain ⟨left, hleft, count, hcount, right, hright, rfl⟩ := mem_corners.1 hx
    rw [LinkRange.operands_of_ne_divide hop] at hright
    exact Operation.combine_mem_wholeNumbers hop (hvalues.mem hleft) (hr.mem hright)
      (hcounts.mem hcount)
  exact ⟨hcorners _ (mem_corners_of_mem_step List.mem_cons_self),
    hcorners _ (mem_corners_of_mem_step (List.mem_cons_of_mem _ List.mem_cons_self))⟩

/-- A chain of pools with whole bounds and without division has whole bounds. -/
theorem Chain.bounds_whole_of_links {c : Chain ℚ}
    (h : ∀ l ∈ c.links, l.operation ≠ .divide ∧ (l.pool.bounds custom).Whole) :
    (c.bounds custom).Whole := by
  have hfold : ∀ (ls : List (Link ℚ)) (range : ChainRange ℚ),
      (∀ l ∈ ls, l.operation ≠ .divide ∧ (l.pool.bounds custom).Whole) →
        range.values.Whole → range.counts.Whole →
          ((ls.map (Link.range custom)).foldl ChainRange.step range).values.Whole := by
    intro ls
    induction ls with
    | nil => exact fun range _ hvalues _ => hvalues
    | cons l ls ih =>
      intro range hls hvalues hcounts
      obtain ⟨⟨hop, hpool⟩, hls⟩ := List.forall_mem_cons.1 hls
      rw [List.map_cons, List.foldl_cons]
      exact ih _ hls (ChainRange.whole_step hvalues hcounts hop hpool)
        (l.pool.counts_whole custom)
  exact hfold c.links .start h (Bounds.whole_single (intCast_mem_wholeNumbers 0))
    (Bounds.whole_single (intCast_mem_wholeNumbers 1))

mutual

/-- **A die that promises whole rolls has whole bounds.** -/
theorem Die.bounds_whole :
    ∀ d : Die ℚ, d.isWhole = true → (d.bounds custom).Whole
  | .fixed value, h => by
    rw [Die.isWhole, Scalar.isWhole_iff] at h
    rw [Die.bounds]
    exact Bounds.whole_single h
  | .uniform u, _ => by
    rw [Die.bounds]
    exact ⟨intCast_mem_wholeNumbers u.min, intCast_mem_wholeNumbers u.max⟩
  | .pool p, h => by
    rw [Die.isWhole] at h
    rw [Die.bounds_pool]
    exact Pool.bounds_whole p h
  | .link c, h => by
    rw [Die.isWhole] at h
    rw [Die.bounds_link]
    exact Chain.bounds_whole_of_links (Chain.links_bounds_whole c h)
  | .chain c, h => by
    rw [Die.isWhole] at h
    rw [Die.bounds_chain]
    exact Chain.bounds_whole_of_links (Chain.links_bounds_whole c h)
  | .custom _, h => by rw [Die.isWhole] at h; cases h

@[inherit_doc Die.bounds_whole]
theorem Pool.bounds_whole : ∀ p : Pool ℚ, p.isWhole = true → (p.bounds custom).Whole
  | .single value, h => by
    rw [Pool.isWhole] at h
    rw [Pool.bounds, Pool.valueBounds]
    exact (Pool.counts_whole custom _).times (Die.bounds_whole value h)
  | .counted count value, h => by
    rw [Pool.isWhole] at h
    rw [Pool.bounds, Pool.valueBounds]
    exact (Pool.counts_whole custom _).times (Die.bounds_whole value h)

@[inherit_doc Die.bounds_whole]
theorem Chain.links_bounds_whole : ∀ c : Chain ℚ, c.isWhole = true →
    ∀ l ∈ c.links, l.operation ≠ .divide ∧ (l.pool.bounds custom).Whole
  | .head op p, h, l, hl => by
    rw [Chain.links_head, List.mem_singleton] at hl
    subst hl
    rw [Chain.isWhole, Bool.and_eq_true, bne_iff_ne] at h
    exact ⟨h.1, Pool.bounds_whole p h.2⟩
  | .append front op p, h, l, hl => by
    rw [Chain.links_append, List.mem_append, List.mem_singleton] at hl
    rw [Chain.isWhole, Bool.and_eq_true, Bool.and_eq_true, bne_iff_ne] at h
    rcases hl with hl | rfl
    · exact Chain.links_bounds_whole front h.2 l hl
    · exact ⟨h.1.1, Pool.bounds_whole p h.1.2⟩

end

/-- **The promise of whole rolls is kept.**  If it holds of a die, then at every table and in every
state, whatever its custom dice do, the die only rolls integers, and whatever bounds its custom dice
have, its own bounds are integers. -/
theorem Die.whole_of_isWhole {d : Die ℚ} (h : d.isWhole = true) :
    (∀ (σ : Type) (t : Table σ ℚ) (s : σ) (x : ℚ),
      (d.roll t s).outcome = .ok x → ∃ n : ℤ, (n : ℚ) = x) ∧
    ∀ custom : CustomDie → Bounds ℚ,
      (∃ n : ℤ, (n : ℚ) = (d.bounds custom).low) ∧ ∃ n : ℤ, (n : ℚ) = (d.bounds custom).high := by
  refine ⟨fun σ t s x hx => ?_, fun custom => ?_⟩
  · exact mem_wholeNumbers.1 (Die.roll_whole t d h s x hx)
  · have hbounds : (d.bounds custom).Whole := Die.bounds_whole d h
    exact ⟨mem_wholeNumbers.1 hbounds.low, mem_wholeNumbers.1 hbounds.high⟩

/-- The hypothesis of `Die.whole_of_isWhole` is satisfiable by a die with fractions and custom dice in
its counts: two and a half six-sided dice, times `-3`, less a four-sided die for each of them. -/
theorem Die.whole_of_isWhole_fractions :
    let count : Die ℚ := .pool (.counted (.fixed 3) (.custom ⟨0, "half"⟩))
    let factor : Chain ℚ :=
      (Chain.ofPool (.counted (.fixed (5 / 2)) (.uniform (.d 6 (by decide))))).append .multiply
        (.single (.fixed (-3)))
    let d : Die ℚ := .chain (factor.append .eachMinus (.counted count (.uniform (.d 4 (by decide)))))
    d.isWhole = true ∧ (d.roll Table.halves (.steps 2 5)).outcome.toOption = some (-13) ∧
      (∃ n : ℤ, (n : ℚ) = -13) ∧
      ∃ n : ℤ, (n : ℚ) = (d.bounds (Table.halves.customBounds (.steps 2 5))).low := by
  intro count factor d
  have hd : d.isWhole = true := by decide +kernel
  have hroll : (d.roll Table.halves (.steps 2 5)).outcome.toOption = some (-13) := by
    decide +kernel
  have hwhole := Die.whole_of_isWhole hd
  exact ⟨hd, hroll, hwhole.1 _ Table.halves (.steps 2 5) _ (toOption_eq_some_iff.1 hroll),
    (hwhole.2 (Table.halves.customBounds (.steps 2 5))).1⟩

end DiceFormula
