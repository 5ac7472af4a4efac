/-
# Tame dice

The bounds of a pool are products, but its rolls are added up one by one, and in double precision
the two can differ: ten times `0.1` is `1`, and ten `0.1` add up to a little less.  A pool *adds*
if this does no harm: as many of its least values as it may roll do not add up to less than its
lower bound, and neither do its greatest values add up to more than its upper bound (`Pool.Adds`).
A pool adds if these sums are exact (`Pool.adds_of_exact`), as they are for a single die and for
integers up to nine thousand million (`Pool.adds_of_whole`).

A die is *tame* if every pool inside adds, and no bounds inside are infinite (`Die.Tame`).  It is
enough that whatever is rolled more than once inside has integer ends (`Die.Checked.tame`).
-/

import DiceFormula.Proofs.Die.DoubleCorner

namespace DiceFormula

open Scalar

/-! ### Sums of one value -/

namespace Scalar

theorem sum_replicate_succ (n : ℕ) (x : Float) :
    sum (List.replicate (n + 1) x) = sum (List.replicate n x) + x := by
  rw [sum, List.replicate_succ', List.foldl_append]
  rfl

theorem hasValue_neutral : HasValue neutral 0 := by
  have hzero : nearest ((0 : ℕ) / 10 ^ 0) = 0 := by
    rw [Nat.cast_zero, zero_div, nearest_zero]
  have hexact := exact_ofDecimal true 0 0 (by rw [hzero]; exact doubleLimit_pos)
  rw [hzero] at hexact
  exact hasValue_iff.2 ⟨true, 0, hexact, withSign_zero true⟩

/-- A single value is its sum. -/
theorem HasValue.sum_one {x : Float} {v : ℚ} (hx : HasValue x v) :
    HasValue (sum (List.replicate 1 x)) v := by
  have hsum : sum (List.replicate 1 x) = neutral + x := sum_replicate_succ 0 x
  rw [hsum, HasValue, hasValue_neutral.place?_add hx, zero_add, hx.round_eq]

/-- Integers add up exactly, as long as the sum is not too large. -/
theorem HasValue.sum_replicate {x : Float} {m : ℤ} (hx : HasValue x m) :
    ∀ {n : ℕ}, |n * m| < 2 ^ 53 → HasValue (sum (List.replicate n x)) (n * m)
  | 0, _ => by
    rw [Nat.cast_zero, zero_mul]
    exact hasValue_neutral
  | n + 1, h => by
    have hprevious : |n * m| < 2 ^ 53 := by
      refine lt_of_le_of_lt ?_ h
      rw [abs_mul, abs_mul, Nat.abs_cast, Nat.abs_cast]
      exact mul_le_mul_of_nonneg_right (by omega) (abs_nonneg m)
    have hsum : ((n : ℚ) * m + m) = (((n + 1 : ℕ) * m : ℤ) : ℚ) := by
      push_cast
      ring
    rw [sum_replicate_succ, HasValue, (hx.sum_replicate hprevious).place?_add hx, hsum,
      Place.round_intCast h]
    push_cast
    rfl

end Scalar

/-! ### Pools that add -/

namespace Pool

/-- As many of the least values as the pool may roll do not add up to less than its lower bound,
and as many of the greatest do not add up to more than its upper bound. -/
def Adds (p : Pool Float) : Prop :=
  ∀ n : ℕ, n ≤ maxRolls → (p.counts noCustom).Encloses (ofInt n) →
    (p.bounds noCustom).low ≤ sum (List.replicate n (p.valueBounds noCustom).low) ∧
      sum (List.replicate n (p.valueBounds noCustom).high) ≤ (p.bounds noCustom).high

theorem hasValue_ofInt_of_le_maxRolls {n : ℕ} (h : n ≤ maxRolls) : HasValue (ofInt n) n := by
  rw [maxRolls] at h
  have hvalue := hasValue_ofInt (n := n) (by rw [Nat.abs_cast]; omega)
  rwa [Int.cast_natCast] at hvalue

end Pool

/-- The product of a count between two others with one value. -/
theorem Bounds.times_single_encloses {counts : Bounds Float} {x s : Float} {low high k v : ℚ}
    (hlow : HasValue counts.low low) (hhigh : HasValue counts.high high) (hx : HasValue x v)
    (hs : HasValue s (k * v)) (hl : low ≤ k) (hh : k ≤ high) :
    (counts.times (.single x)).Encloses s := by
  have hleast := hlow.place?_mul hx
  have hgreatest := hhigh.place?_mul hx
  have hleast' : counts.low * x ≤ counts.low * x := by
    rw [le_self_iff, hleast]
    rfl
  have hgreatest' : counts.high * x ≤ counts.high * x := by
    rw [le_self_iff, hgreatest]
    rfl
  have hfirst : (counts.times (.single x)).Encloses (counts.low * x) :=
    ⟨lesser_le hleast' _, le_greater hleast' _⟩
  have hlast : (counts.times (.single x)).Encloses (counts.high * x) :=
    ⟨lesser_le_right _ hgreatest', right_le_greater _ hgreatest'⟩
  obtain ⟨p, q, hp, hq⟩ := hfirst.exists_places
  rw [encloses_iff hp hq hleast] at hfirst
  rw [encloses_iff hp hq hgreatest] at hlast
  have hround := Operation.round_mul_monotone_or v
  simp only [mul_comm v] at hround
  rw [encloses_iff hp hq hs, ← hs.round_eq]
  exact mem_Icc_of_monotone_or (f := fun count => Place.round (count * v)) hround hl hh hfirst hlast

namespace Pool

variable {p : Pool Float}

/-- **A pool adds if its sums are exact.** -/
theorem adds_of_exact {low high : ℚ} (hcounts : (p.counts noCustom).Finite)
    (hlow : HasValue (p.valueBounds noCustom).low low)
    (hhigh : HasValue (p.valueBounds noCustom).high high)
    (h : ∀ n : ℕ, n ≤ maxRolls → (p.counts noCustom).Encloses (ofInt n) →
      HasValue (sum (List.replicate n (p.valueBounds noCustom).low)) (n * low) ∧
        HasValue (sum (List.replicate n (p.valueBounds noCustom).high)) (n * high)) : p.Adds := by
  intro n hn hencloses
  obtain ⟨hleast, hgreatest⟩ := h n hn hencloses
  obtain ⟨a, k, b, ha, hk, hb, hak, hkb⟩ := hencloses.exists_values hcounts
  obtain rfl := hk.unique (hasValue_ofInt_of_le_maxRolls hn)
  exact ⟨(Bounds.times_single_encloses ha hb hlow hleast hak hkb).1,
    (Bounds.times_single_encloses ha hb hhigh hgreatest hak hkb).2⟩

/-- A single die adds. -/
theorem adds_single {value : Die Float} (h : (value.bounds noCustom).Finite) :
    (single value).Adds := by
  obtain ⟨low, hlow⟩ := exists_hasValue h.1
  obtain ⟨high, hhigh⟩ := exists_hasValue h.2
  have hcounts : ((single value).counts noCustom).Finite := by
    rw [counts]
    exact ⟨hasValue_one.isFinite, hasValue_one.isFinite⟩
  refine adds_of_exact hcounts (by rwa [valueBounds]) (by rwa [valueBounds]) ?_
  intro n hn hencloses
  rw [counts, Bounds.Encloses] at hencloses
  have hvalue := hasValue_ofInt_of_le_maxRolls hn
  obtain rfl : n = 1 := by
    refine le_antisymm ?_ ?_
    · exact_mod_cast (hvalue.le_iff hasValue_one).1 hencloses.2
    · exact_mod_cast (hasValue_one.le_iff hvalue).1 hencloses.1
  rw [valueBounds, Nat.cast_one, one_mul, one_mul]
  exact ⟨hlow.sum_one, hhigh.sum_one⟩

/-- **Dice whose ends are integers add** if these are not too large: a sum of up to `maxRolls`
integers below nine thousand million is exact. -/
theorem adds_of_whole {low high : ℤ} (hcounts : (p.counts noCustom).Finite)
    (hlow : HasValue (p.valueBounds noCustom).low low)
    (hhigh : HasValue (p.valueBounds noCustom).high high) (hl : |low| ≤ 9000000000)
    (hh : |high| ≤ 9000000000) : p.Adds := by
  have hsmall {n : ℕ} (hn : n ≤ maxRolls) {m : ℤ} (hm : |m| ≤ 9000000000) :
      |n * m| < 2 ^ 53 := by
    rw [maxRolls] at hn
    calc |(n : ℤ) * m| = n * |m| := by rw [abs_mul, Nat.abs_cast]
      _ ≤ 1000000 * 9000000000 := mul_le_mul (by omega) hm (abs_nonneg m) (by norm_num)
      _ < 2 ^ 53 := by norm_num
  exact adds_of_exact hcounts hlow hhigh fun n hn _ =>
    ⟨hlow.sum_replicate (hsmall hn hl), hhigh.sum_replicate (hsmall hn hh)⟩

end Pool

/-! ### Tame dice -/

mutual

/-- All bounds inside are finite, and all pools inside add. -/
def Die.Tame : Die Float → Prop
  | .fixed _ | .uniform _ | .custom _ => True
  | .pool p => p.Tame
  | .link c | .chain c => c.Tame

@[inherit_doc Die.Tame]
def Pool.Tame : Pool Float → Prop
  | .single value => value.Tame
  | .counted count value =>
    count.Tame ∧ value.Tame ∧ ((Pool.counted count value).bounds noCustom).Finite ∧
      (Pool.counted count value).Adds

@[inherit_doc Die.Tame]
def Chain.Tame : Chain Float → Prop
  | .head op p => p.Tame ∧ ((Chain.head op p).bounds noCustom).Finite
  | .append front op p =>
    front.Tame ∧ p.Tame ∧ ((front.append op p).bounds noCustom).Finite

end

theorem Chain.Tame.finite_bounds {c : Chain Float} (h : c.Tame) : (c.bounds noCustom).Finite := by
  cases c with
  | head op p =>
    rw [Chain.Tame] at h
    exact h.2
  | append front op p =>
    rw [Chain.Tame] at h
    exact h.2.2

/-- What the bounds of a pool are computed from is finite, and the pool adds. -/
structure Pool.Enclosing (p : Pool Float) : Prop where
  counts : (p.counts noCustom).Finite
  values : (p.valueBounds noCustom).Finite
  bounds : (p.bounds noCustom).Finite
  adds : p.Adds

theorem Pool.enclosing_single {value : Die Float} (h : (value.bounds noCustom).Finite) :
    (single value).Enclosing := by
  have hproduct {x : Float} (hx : Scalar.isFinite x = true) : ∃ v, HasValue (ofInt 1 * x) v := by
    obtain ⟨v, hv⟩ := exists_hasValue hx
    refine ⟨v, ?_⟩
    rw [HasValue, hasValue_one.place?_mul hv, one_mul, hv.round_eq]
  obtain ⟨low, hlow⟩ := hproduct h.1
  obtain ⟨high, hhigh⟩ := hproduct h.2
  refine ⟨?_, ?_, ?_, adds_single h⟩
  · rw [Pool.counts]
    exact ⟨hasValue_one.isFinite, hasValue_one.isFinite⟩
  · rwa [valueBounds]
  · rw [Pool.bounds, Pool.counts, valueBounds]
    exact ⟨(hlow.lesser hlow).isFinite, (hhigh.greater hhigh).isFinite⟩

mutual

/-- **The bounds of a tame die are finite.** -/
theorem Die.Checked.finite_bounds : ∀ {d : Die Float}, d.Checked → d.Tame →
    (d.bounds noCustom).Finite
  | _, .fixed h, _ => by
    rw [Die.ofFixed_eq_ok h, Die.bounds]
    exact ⟨Die.isFinite_of_ofFixed h, Die.isFinite_of_ofFixed h⟩
  | _, .uniform u, _ => by
    have horder := u.min_le_max
    have hmin := u.smallest_le_min
    have hmax := u.max_lt_largest
    rw [smallestInt] at hmin
    rw [largestInt] at hmax
    rw [Die.bounds]
    exact ⟨isFinite_ofInt (abs_le.2 ⟨by omega, by omega⟩),
      isFinite_ofInt (abs_le.2 ⟨by omega, by omega⟩)⟩
  | _, .pool hp, ht => by
    rw [Die.Tame] at ht
    rw [Die.bounds_pool]
    exact (Pool.Checked.enclosing hp ht).bounds
  | _, .link hc, ht => by
    rw [Die.Tame] at ht
    rw [Die.bounds_link]
    exact ht.finite_bounds
  | _, .chain hc, ht => by
    rw [Die.Tame] at ht
    rw [Die.bounds_chain]
    exact ht.finite_bounds

/-- **A tame pool encloses its sums.** -/
theorem Pool.Checked.enclosing : ∀ {p : Pool Float}, p.Checked → p.Tame → p.Enclosing
  | _, .single hv, ht => by
    rw [Pool.Tame] at ht
    exact Pool.enclosing_single (Die.Checked.finite_bounds hv ht)
  | _, .counted hc hv h, ht => by
    obtain rfl := (Pool.ofCount_eq_ok_iff.1 h).2
    rw [Pool.Tame] at ht
    obtain ⟨hcount, hvalue, hbounds, hadds⟩ := ht
    refine ⟨?_, ?_, hbounds, hadds⟩
    · rw [Pool.counts]
      exact (Die.Checked.finite_bounds hc hcount).trunc
    · rw [Pool.valueBounds]
      exact Die.Checked.finite_bounds hv hvalue

end

mutual

/-- **Inside a tame die every count is tame.** -/
theorem Die.Tame.of_mem_pools : ∀ {d : Die Float} {p : Pool Float} {count : Die Float},
    d.Tame → p ∈ d.pools → count ∈ p.count? → count.Tame
  | .pool q, p, count, h, hp, hcount => by
    rw [Die.Tame] at h
    rw [Die.pools] at hp
    exact Pool.Tame.of_mem_pools h hp hcount
  | .link c, p, count, h, hp, hcount | .chain c, p, count, h, hp, hcount => by
    rw [Die.Tame] at h
    rw [Die.pools] at hp
    exact Chain.Tame.of_mem_pools h hp hcount
  | .fixed _, p, count, _, hp, _ | .uniform _, p, count, _, hp, _
  | .custom _, p, count, _, hp, _ => by
    rw [Die.pools] at hp
    exact absurd hp List.not_mem_nil

@[inherit_doc Die.Tame.of_mem_pools]
theorem Pool.Tame.of_mem_pools : ∀ {q : Pool Float} {p : Pool Float} {count : Die Float},
    q.Tame → p ∈ q.pools → count ∈ p.count? → count.Tame
  | .single value, p, count, h, hp, hcount => by
    rw [Pool.Tame] at h
    rw [Pool.pools, List.mem_cons] at hp
    rcases hp with rfl | hp
    · cases hcount
    · exact Die.Tame.of_mem_pools h hp hcount
  | .counted c value, p, count, h, hp, hcount => by
    rw [Pool.Tame] at h
    rw [Pool.pools, List.mem_cons, List.mem_append] at hp
    rcases hp with rfl | hp | hp
    · obtain rfl : c = count := Option.some.inj hcount
      exact h.1
    · exact Die.Tame.of_mem_pools h.1 hp hcount
    · exact Die.Tame.of_mem_pools h.2.1 hp hcount

@[inherit_doc Die.Tame.of_mem_pools]
theorem Chain.Tame.of_mem_pools : ∀ {c : Chain Float} {p : Pool Float} {count : Die Float},
    c.Tame → p ∈ c.pools → count ∈ p.count? → count.Tame
  | .head _ q, p, count, h, hp, hcount => by
    rw [Chain.Tame] at h
    rw [Chain.pools] at hp
    exact Pool.Tame.of_mem_pools h.1 hp hcount
  | .append front _ q, p, count, h, hp, hcount => by
    rw [Chain.Tame] at h
    rw [Chain.pools, List.mem_append] at hp
    rcases hp with hp | hp
    · exact Chain.Tame.of_mem_pools h.1 hp hcount
    · exact Pool.Tame.of_mem_pools h.2.1 hp hcount

end

/-! ### Integer ends -/

/-- Both ends are integers of a size of at most nine thousand million. -/
def Bounds.WholeEnds (b : Bounds Float) : Prop :=
  ∃ low high : ℤ, HasValue b.low low ∧ HasValue b.high high ∧
    |low| ≤ 9000000000 ∧ |high| ≤ 9000000000

mutual

/-- All bounds inside are finite, and whatever is rolled more than once inside has integer ends,
which are not too large. -/
def Die.WholeEnds : Die Float → Prop
  | .fixed _ | .uniform _ | .custom _ => True
  | .pool p => p.WholeEnds
  | .link c | .chain c => c.WholeEnds

@[inherit_doc Die.WholeEnds]
def Pool.WholeEnds : Pool Float → Prop
  | .single value => value.WholeEnds
  | .counted count value =>
    count.WholeEnds ∧ value.WholeEnds ∧ ((Pool.counted count value).bounds noCustom).Finite ∧
      (value.bounds noCustom).WholeEnds

@[inherit_doc Die.WholeEnds]
def Chain.WholeEnds : Chain Float → Prop
  | .head op p => p.WholeEnds ∧ ((Chain.head op p).bounds noCustom).Finite
  | .append front op p =>
    front.WholeEnds ∧ p.WholeEnds ∧ ((front.append op p).bounds noCustom).Finite

end

mutual

/-- **Dice with integer ends are tame.** -/
theorem Die.Checked.tame : ∀ {d : Die Float}, d.Checked → d.WholeEnds → d.Tame
  | _, .fixed h, _ => by
    rw [Die.ofFixed_eq_ok h, Die.Tame]
    trivial
  | _, .uniform u, _ => by
    rw [Die.Tame]
    trivial
  | _, .pool hp, hw => by
    rw [Die.WholeEnds] at hw
    rw [Die.Tame]
    exact Pool.Checked.tame hp hw
  | _, .link hc, hw | _, .chain hc, hw => by
    rw [Die.WholeEnds] at hw
    rw [Die.Tame]
    exact Chain.Checked.tame hc hw

@[inherit_doc Die.Checked.tame]
theorem Pool.Checked.tame : ∀ {p : Pool Float}, p.Checked → p.WholeEnds → p.Tame
  | _, .single hv, hw => by
    rw [Pool.WholeEnds] at hw
    rw [Pool.Tame]
    exact Die.Checked.tame hv hw
  | _, .counted hc hv h, hw => by
    obtain rfl := (Pool.ofCount_eq_ok_iff.1 h).2
    rw [Pool.WholeEnds] at hw
    obtain ⟨hcount, hvalue, hbounds, low, high, hlow, hhigh, hl, hh⟩ := hw
    have htame := Die.Checked.tame hc hcount
    rw [Pool.Tame]
    refine ⟨htame, Die.Checked.tame hv hvalue, hbounds, Pool.adds_of_whole ?_ ?_ ?_ hl hh⟩
    · rw [Pool.counts]
      exact (hc.finite_bounds htame).trunc
    · rwa [Pool.valueBounds]
    · rwa [Pool.valueBounds]

@[inherit_doc Die.Checked.tame]
theorem Chain.Checked.tame : ∀ {c : Chain Float}, c.Checked → c.WholeEnds → c.Tame
  | _, .head op hp, hw => by
    rw [Chain.WholeEnds] at hw
    rw [Chain.Tame]
    exact ⟨Pool.Checked.tame hp hw.1, hw.2⟩
  | _, .append op hf hp, hw => by
    rw [Chain.WholeEnds] at hw
    rw [Chain.Tame]
    exact ⟨Chain.Checked.tame hf hw.1, Pool.Checked.tame hp hw.2.1, hw.2.2⟩

end

end DiceFormula
