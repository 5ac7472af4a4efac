/-
# Dice read back

Dice without custom dice can be stored, and are read back from what was stored.  For this, all
that was checked when they were built is checked again, and with the same result: the die of a
description is checked if and only if the counts of the description pass
(`DieRecord.checked_of_die?`, `Die.Checked.exists_record`).

The check of a count is that its lower bound does not truncate to less than one.  That is not the
same as truncating to at least one.  Bounds of large values can be no numbers, which are neither,
and then a count passes whatever it rolls (`not_refused_zero_count`).
-/

import DiceFormula.Die.Equality
import DiceFormula.Proofs.Number.Order
import DiceFormula.Proofs.Record.Written
import DiceFormula.Proofs.Roll.Outcome

namespace DiceFormula

variable {α : Type}

/-! ### What can be stored -/

mutual

/-- Only custom dice cannot be stored. -/
theorem Die.isSome_toDatum?_iff :
    ∀ d : Die α, d.toDatum?.isSome = true ↔ ∀ k, .custom k ∉ d.leaves
  | .fixed _ | .uniform _ | .custom _ => by simp [Die.toDatum?, Die.leaves]
  | .pool p => by
    rw [Die.leaves, ← Pool.isSome_toDatum?_iff p, Die.toDatum?]
    cases p.toDatum? <;> rfl
  | .link c | .chain c => by
    rw [Die.leaves, ← Chain.isSome_linkToDatum?_iff c, Die.toDatum?]
    cases c.linkToDatum? <;> rfl

@[inherit_doc Die.isSome_toDatum?_iff]
theorem Pool.isSome_toDatum?_iff :
    ∀ p : Pool α, p.toDatum?.isSome = true ↔ ∀ k, .custom k ∉ p.leaves
  | .single value => by
    rw [Pool.leaves, ← Die.isSome_toDatum?_iff value, Pool.toDatum?]
    cases value.toDatum? <;> rfl
  | .counted count value => by
    simp only [Pool.leaves, List.mem_append, not_or, forall_and, ← Die.isSome_toDatum?_iff,
      Pool.toDatum?]
    cases count.toDatum? <;> cases value.toDatum? <;> simp

@[inherit_doc Die.isSome_toDatum?_iff]
theorem Chain.isSome_linkToDatum?_iff :
    ∀ c : Chain α, c.linkToDatum?.isSome = true ↔ ∀ k, .custom k ∉ c.leaves
  | .head op p => by
    rw [Chain.leaves, ← Pool.isSome_toDatum?_iff p, Chain.linkToDatum?]
    cases p.toDatum? <;> rfl
  | .append front op p => by
    simp only [Chain.leaves, List.mem_append, not_or, forall_and, ← Pool.isSome_toDatum?_iff,
      ← Chain.isSome_linkToDatum?_iff front, Chain.linkToDatum?]
    cases front.linkToDatum? <;> cases p.toDatum? <;> simp

end

variable [Scalar α]

/-! ### Checked again -/

theorem Uniform.exists_ends (u : Uniform) : ∃ e : Ends, e.uniform? = some u := by
  have hmax : smallestInt ≤ u.max := u.smallest_le_min.trans u.min_le_max
  have hmin : u.min ≤ largestInt := u.min_le_max.trans u.max_lt_largest.le
  exact ⟨⟨u.min, u.max, ⟨u.smallest_le_min, hmin⟩, ⟨hmax, u.max_lt_largest.le⟩⟩,
    dif_pos ⟨u.min_le_max, u.max_lt_largest⟩⟩

mutual

/-- Checked dice have a description whose counts pass. -/
theorem Die.Checked.exists_record : ∀ {d : Die α}, d.Checked →
    ∃ t : DieRecord α, t.die? = some d ∧ ∀ n ∈ t.counts, n.IsCount
  | _, .fixed (x := x) h => by
    obtain rfl := Die.ofFixed_eq_ok h
    refine ⟨.fixed x (Die.isFinite_of_ofFixed h), ?_⟩
    rw [DieRecord.die?, DieRecord.counts]
    exact ⟨rfl, fun n hn => absurd hn List.not_mem_nil⟩
  | _, .uniform u => by
    obtain ⟨e, he⟩ := u.exists_ends
    refine ⟨.uniform e, ?_⟩
    rw [DieRecord.die?, DieRecord.counts, he]
    exact ⟨rfl, fun n hn => absurd hn List.not_mem_nil⟩
  | _, .pool hp => by
    obtain ⟨t, ht, hcounts⟩ := Pool.Checked.exists_record hp
    refine ⟨.pool t, ?_⟩
    rw [DieRecord.die?, DieRecord.counts, ht]
    exact ⟨rfl, hcounts⟩
  | _, .link hc => by
    obtain ⟨t, ht, hcounts⟩ := Chain.Checked.exists_record hc
    refine ⟨.link t, ?_⟩
    rw [DieRecord.die?, DieRecord.counts, ht]
    exact ⟨rfl, hcounts⟩
  | _, .chain hc => by
    obtain ⟨t, ht, hcounts⟩ := Chain.Checked.exists_record hc
    refine ⟨.chain t, ?_⟩
    rw [DieRecord.die?, DieRecord.counts, ht]
    exact ⟨rfl, hcounts⟩

@[inherit_doc Die.Checked.exists_record]
theorem Pool.Checked.exists_record : ∀ {p : Pool α}, p.Checked →
    ∃ t : PoolRecord α, t.pool? = some p ∧ ∀ n ∈ t.counts, n.IsCount
  | _, .single hv => by
    obtain ⟨t, ht, hcounts⟩ := Die.Checked.exists_record hv
    refine ⟨.single t, ?_⟩
    rw [PoolRecord.pool?, PoolRecord.counts, ht]
    exact ⟨rfl, hcounts⟩
  | _, .counted hc hv h => by
    obtain ⟨n, hn, hcounts⟩ := Die.Checked.exists_record hc
    obtain ⟨t, ht, hcounts'⟩ := Die.Checked.exists_record hv
    obtain ⟨hone, rfl⟩ := Pool.ofCount_eq_ok_iff.1 h
    refine ⟨.counted n t, ?_⟩
    rw [PoolRecord.pool?, PoolRecord.counts, hn, ht]
    exact ⟨rfl, List.forall_mem_append.2 ⟨hcounts', List.forall_mem_append.2
      ⟨hcounts, List.forall_mem_singleton.2 ⟨_, hn, hone⟩⟩⟩⟩

@[inherit_doc Die.Checked.exists_record]
theorem Chain.Checked.exists_record : ∀ {c : Chain α}, c.Checked →
    ∃ t : LinkRecord α, t.chain? = some c ∧ ∀ n ∈ t.counts, n.IsCount
  | _, .head op hp => by
    obtain ⟨t, ht, hcounts⟩ := Pool.Checked.exists_record hp
    refine ⟨.head op t, ?_⟩
    rw [LinkRecord.chain?, LinkRecord.counts, ht]
    exact ⟨rfl, hcounts⟩
  | _, .append op hf hp => by
    obtain ⟨f, hf, hcounts⟩ := Chain.Checked.exists_record hf
    obtain ⟨t, ht, hcounts'⟩ := Pool.Checked.exists_record hp
    refine ⟨.append f op t, ?_⟩
    rw [LinkRecord.chain?, LinkRecord.counts, hf, ht]
    exact ⟨rfl, List.forall_mem_append.2 ⟨hcounts', hcounts⟩⟩

end

mutual

/-- The die of a description whose counts pass is checked. -/
theorem DieRecord.checked_of_die? : ∀ {t : DieRecord α} {d : Die α}, t.die? = some d →
    (∀ n ∈ t.counts, n.IsCount) → d.Checked
  | .fixed value finite, d, h, hcounts => by
    rw [DieRecord.die?] at h
    cases h
    exact .fixed (if_pos finite)
  | .uniform e, d, h, hcounts => by
    rw [DieRecord.die?] at h
    obtain ⟨u, -, rfl⟩ := Option.map_eq_some_iff.1 h
    exact .uniform u
  | .pool p, d, h, hcounts => by
    rw [DieRecord.die?] at h
    rw [DieRecord.counts] at hcounts
    obtain ⟨q, hq, rfl⟩ := Option.map_eq_some_iff.1 h
    exact .pool (PoolRecord.checked_of_pool? hq hcounts)
  | .link c, d, h, hcounts => by
    rw [DieRecord.die?] at h
    rw [DieRecord.counts] at hcounts
    obtain ⟨c', hc, rfl⟩ := Option.map_eq_some_iff.1 h
    exact .link (LinkRecord.checked_of_chain? hc hcounts)
  | .chain c, d, h, hcounts => by
    rw [DieRecord.die?] at h
    rw [DieRecord.counts] at hcounts
    obtain ⟨c', hc, rfl⟩ := Option.map_eq_some_iff.1 h
    exact .chain (LinkRecord.checked_of_chain? hc hcounts)

@[inherit_doc DieRecord.checked_of_die?]
theorem PoolRecord.checked_of_pool? : ∀ {t : PoolRecord α} {p : Pool α}, t.pool? = some p →
    (∀ n ∈ t.counts, n.IsCount) → p.Checked
  | .single value, p, h, hcounts => by
    rw [PoolRecord.pool?] at h
    rw [PoolRecord.counts] at hcounts
    obtain ⟨v, hv, rfl⟩ := Option.map_eq_some_iff.1 h
    exact .single (DieRecord.checked_of_die? hv hcounts)
  | .counted count value, p, h, hcounts => by
    rw [PoolRecord.pool?] at h
    obtain ⟨v, hv, h⟩ := Option.bind_eq_some_iff.1 h
    obtain ⟨n, hn, h⟩ := Option.bind_eq_some_iff.1 h
    cases h
    rw [PoolRecord.counts, List.forall_mem_append, List.forall_mem_append,
      List.forall_mem_singleton] at hcounts
    obtain ⟨hvalue, hcount, hpass⟩ := hcounts
    exact .counted (DieRecord.checked_of_die? hn hcount) (DieRecord.checked_of_die? hv hvalue)
      (Pool.ofCount_eq_ok_iff.2 ⟨(DieRecord.isCount_iff hn).1 hpass, rfl⟩)

@[inherit_doc DieRecord.checked_of_die?]
theorem LinkRecord.checked_of_chain? : ∀ {t : LinkRecord α} {c : Chain α}, t.chain? = some c →
    (∀ n ∈ t.counts, n.IsCount) → c.Checked
  | .head op p, c, h, hcounts => by
    rw [LinkRecord.chain?] at h
    rw [LinkRecord.counts] at hcounts
    obtain ⟨q, hq, rfl⟩ := Option.map_eq_some_iff.1 h
    exact .head op (PoolRecord.checked_of_pool? hq hcounts)
  | .append front op p, c, h, hcounts => by
    rw [LinkRecord.chain?] at h
    obtain ⟨q, hq, h⟩ := Option.bind_eq_some_iff.1 h
    obtain ⟨f, hf, h⟩ := Option.bind_eq_some_iff.1 h
    cases h
    rw [LinkRecord.counts, List.forall_mem_append] at hcounts
    exact .append op (LinkRecord.checked_of_chain? hf hcounts.2)
      (PoolRecord.checked_of_pool? hq hcounts.1)

end

/-! ### Equal to itself -/

mutual

/-- Checked dice hold numbers only, which are equal to themselves. -/
theorem Die.Checked.beq_self : ∀ {d : Die Float}, d.Checked → d.beq d = true
  | _, .fixed (x := x) h => by
    rw [Die.ofFixed_eq_ok h, Die.beq, Scalar.beq_self_iff]
    exact Scalar.le_self_of_isFinite (Die.isFinite_of_ofFixed h)
  | _, .uniform u => by
    rw [Die.beq, beq_self_eq_true]
  | _, .pool hp => by
    rw [Die.beq]
    exact Pool.Checked.beq_self hp
  | _, .link hc | _, .chain hc => by
    rw [Die.beq]
    exact Chain.Checked.beq_self hc

@[inherit_doc Die.Checked.beq_self]
theorem Pool.Checked.beq_self : ∀ {p : Pool Float}, p.Checked → p.beq p = true
  | _, .single hv => by
    rw [Pool.beq]
    exact Die.Checked.beq_self hv
  | _, .counted hc hv h => by
    rw [(Pool.ofCount_eq_ok_iff.1 h).2, Pool.beq, Die.Checked.beq_self hv, Die.Checked.beq_self hc,
      Bool.and_self]

@[inherit_doc Die.Checked.beq_self]
theorem Chain.Checked.beq_self : ∀ {c : Chain Float}, c.Checked → c.beq c = true
  | _, .head op hp => by
    rw [Chain.beq, Pool.Checked.beq_self hp, beq_self_eq_true, Bool.and_self]
  | _, .append op hf hp => by
    rw [Chain.beq, Pool.Checked.beq_self hp, Chain.Checked.beq_self hf, beq_self_eq_true,
      Bool.and_self, Bool.and_self]

end

/-! ### Main results -/

open Scalar

theorem Scalar.not_trunc_lt_one_iff {x : Float} :
    ¬ trunc x < ofInt 1 ↔ ofInt 1 ≤ trunc x ∨ exact x = .nan := by
  have hone : (ofInt 1 : Float) ≤ ofInt 1 := by decide +kernel
  rw [not_lt_iff hone, exact_trunc_eq_nan_iff]

/-- Among doubles, a count passes if its lower bound truncates to at least one, or is no number. -/
theorem DieRecord.isCount_iff_exists {t : DieRecord Float} : t.IsCount ↔
    ∃ d, t.die? = some d ∧ (ofInt 1 ≤ trunc (d.bounds noCustom).low ∨
      exact (d.bounds noCustom).low = .nan) := by
  simp only [IsCount, not_trunc_lt_one_iff]

/-- What was stored is read as what it was. -/
theorem Die.Checked.exists_toDatum? {d : Die α} (h : d.Checked) :
    ∃ r : Datum α, d.toDatum? = some r ∧ r.readDie = .ok d := by
  obtain ⟨t, hdie, hcounts⟩ := h.exists_record
  exact ⟨t.datum, DieRecord.toDatum?_of_die? hdie, (t.writes_datum.readsAs d).2 ⟨hdie, hcounts⟩⟩

/-- **Dice that are stored are read back.**  All but custom dice can be stored.  A record with the
fields that are written, in any order, is read if its intervals are intervals, and the lower bound
of no count truncates to less than one.  What was read is checked, and is stored as it was. -/
theorem records_read_back (d : Die Float) {t : DieRecord Float} {r : Datum Float}
    (h : t.Writes r) :
    (d.toDatum?.isSome = true ↔ ∀ k, .custom k ∉ d.leaves) ∧
    (d.Checked → ∃ s, d.toDatum? = some s ∧ s.readDie = .ok d ∧ (d == d) = true) ∧
    ((∃ x, r.readDie = .ok x) ↔
      (∀ e ∈ t.intervals, e.min ≤ e.max ∧ e.max < largestInt) ∧
      ∀ n ∈ t.counts, ∃ count, n.die? = some count ∧
        (ofInt 1 ≤ trunc (count.bounds noCustom).low ∨ exact (count.bounds noCustom).low = .nan)) ∧
    ∀ x, r.readDie = .ok x → x.Checked ∧ x.toDatum? = some t.datum ∧ t.Writes t.datum := by
  refine ⟨d.isSome_toDatum?_iff, fun hd => ?_, ?_, fun x hx => ?_⟩
  · obtain ⟨s, hstored, hread⟩ := hd.exists_toDatum?
    exact ⟨s, hstored, hread, hd.beq_self⟩
  · calc (∃ x, r.readDie = .ok x)
        ↔ ∃ x, t.die? = some x ∧ ∀ n ∈ t.counts, n.IsCount := exists_congr h.readsAs
      _ ↔ t.die?.isSome = true ∧ ∀ n ∈ t.counts, n.IsCount := by
          rw [exists_and_right, Option.isSome_iff_exists]
      _ ↔ _ := and_congr t.isSome_die? (forall₂_congr fun n _ => n.isCount_iff_exists)
  · obtain ⟨hdie, hcounts⟩ := (h.readsAs x).1 hx
    exact ⟨DieRecord.checked_of_die? hdie hcounts, DieRecord.toDatum?_of_die? hdie, t.writes_datum⟩

/-- A record with its fields in another order: two to four six-sided dice, less a half. -/
theorem records_read_back_reordered :
    let few : Ends := ⟨2, 4, by decide, by decide⟩
    let six : Ends := ⟨1, 6, by decide, by decide⟩
    let half : Float := ofDecimal ⟨false, 5, 1⟩
    let front : LinkRecord Float := .head .plus (.counted (.uniform few) (.uniform six))
    let pool : PoolRecord Float := .single (.fixed half (by decide +kernel))
    let t : DieRecord Float := .chain (.append front .minus pool)
    let first : Datum Float := .fields [
      ("pool", .fields [("count", .fields [("Uniform", .fields [("max", .integer 4),
        ("min", .integer 2)])]), ("value", (DieRecord.uniform six).datum)]),
      ("previous", .null), ("operation", .text "Plus")]
    let r : Datum Float := .fields [("Chain", .fields [("last", .fields [
      ("previous", first), ("operation", .text "Minus"), ("pool", pool.datum)])])]
    t.Writes r ∧ ∃ d, r.readDie = .ok d ∧ d.Checked ∧ d.toDatum? = some t.datum ∧
      ∃ s, d.toDatum? = some s ∧ s.readDie = .ok d ∧ (d == d) = true := by
  intro few six half front pool t first r
  have hfirst : front.Writes first :=
    ⟨_, _, ⟨_, _, _, ⟨_, .swap _ _ _, rfl⟩, DieRecord.writes_datum _, .swap _ _ _, rfl⟩,
      @List.perm_append_comm _ [_, _] [_], rfl⟩
  have hwrites : t.Writes r :=
    ⟨_, ⟨first, _, _, hfirst, PoolRecord.writes_datum pool,
      @List.perm_append_comm _ [_] [_, _], rfl⟩, rfl⟩
  have hintervals : ∀ e ∈ t.intervals, e.min ≤ e.max ∧ e.max < largestInt := by
    rintro e (_ | ⟨_, _ | ⟨_, ⟨⟩⟩⟩)
    all_goals decide
  have hcounts : ∀ n ∈ t.counts, ∃ count, n.die? = some count ∧
      (ofInt 1 ≤ trunc (count.bounds noCustom).low ∨ exact (count.bounds noCustom).low = .nan) := by
    rintro n (_ | ⟨_, ⟨⟩⟩)
    exact ⟨_, rfl, .inl (by decide +kernel)⟩
  have hall (d : Die Float) := records_read_back d hwrites
  obtain ⟨d, hd⟩ := (hall (.ofInt 1)).2.2.1.2 ⟨hintervals, hcounts⟩
  obtain ⟨-, hback, -, hread⟩ := hall d
  obtain ⟨hchecked, hstored, -⟩ := hread d hd
  exact ⟨hwrites, d, hd, hchecked, hstored, hback hchecked⟩

/-- A number of dice that show zero.  The number is a sum of `119` rolls, divided by `10 ^ 308`.
Added up, the rolls round to something finite, but the product of `119` and one of them is
infinite. -/
def Die.zeros : Die Float :=
  .pool (.counted
    (.chain (.append
      (.head .plus (.counted (.ofInt 119) (.fixed (ofDecimal ⟨false, 15106664998843 * 10 ^ 293, 0⟩))))
      .divide (.single (.fixed (ofDecimal ⟨false, 10 ^ 308, 0⟩)))))
    (.ofInt 0))

theorem Die.zeros_checked : zeros.Checked := by
  have hfinite {x : Float} (h : isFinite x = true) : (Die.fixed x).Checked := .fixed (if_pos h)
  refine .pool (.counted (.chain (.append _ (.head _ (.counted ?_ ?_ (if_neg ?_))) (.single ?_))) ?_
    (if_neg ?_))
  · exact hfinite (by decide +kernel)
  · exact hfinite (by decide +kernel)
  · decide +kernel
  · exact hfinite (by decide +kernel)
  · exact hfinite (by decide +kernel)
  · decide +kernel

/-- **A count of zero may pass.**  Infinitely many zeros have no sum, so the bounds of the count are
no numbers, and the record of a pool with this count is read.  But the count rolls zero. -/
theorem not_refused_zero_count :
    ∃ (value : Die Float) (r : Datum Float), r.readDie = .ok (.pool (.counted .zeros value)) ∧
      (Die.pool (.counted .zeros value)).toDatum? = some r ∧
      ¬ ofInt 1 ≤ trunc (Die.zeros.bounds noCustom).low ∧
      exact (Die.zeros.bounds noCustom).low = .nan ∧
      ∃ x, (Die.zeros.roll (.ofSource fun low _ (s : Unit) => (low, s)) ()).outcome = .ok x ∧
        exact x = .finite false 0 := by
  have hnan : exact (Die.zeros.bounds noCustom).low = .nan := by decide +kernel
  have hpool : (Die.pool (.counted .zeros (.uniform (.d 6 (by decide))))).Checked :=
    .pool (.counted Die.zeros_checked (.uniform _) (if_neg (not_trunc_lt_one_iff.2 (.inr hnan))))
  obtain ⟨r, hstored, hread⟩ := hpool.exists_toDatum?
  have hfew : ¬ ofInt 1 ≤ trunc (Die.zeros.bounds noCustom).low := fun h =>
    le_self_iff_exact_ne_nan.1 (le_self_right h) (exact_trunc_eq_nan_iff.2 hnan)
  have hroll : (Die.zeros.roll (.ofSource fun low _ (s : Unit) => (low, s)) ()).outcome.toOption.map
      exact = some (.finite false 0) := by decide +kernel
  obtain ⟨x, hx, hzero⟩ := Option.map_eq_some_iff.1 hroll
  exact ⟨_, r, hread, hstored, hfew, hnan, x, toOption_eq_some_iff.1 hx, hzero⟩

end DiceFormula
