/-
# Tame counts hold

A count is checked when its pool is built, by the integer part of its lower bound.  In double
precision the check does not settle what is rolled, since the bounds of a pool inside the count
are products and its rolls are sums: ten times `0.1` is a valid count, and rolls a little less
than one (`Pool.not_one_le_count_tenths`).

If the count is tame its bounds enclose every roll (`Die.Checked.roll_holds`), and then it is
never below one (`Pool.one_le_count`); dice with integer ends are tame, so that their counts hold
(`Pool.one_le_whole_count`).  The proof follows the die down to its leaves, as in exact
arithmetic.  A pool rolls at least as many of its least values, added up, and at most as many of
its greatest, and both sums lie between its bounds since it adds.  A chain carries along its span,
and whether it is whole, since whole divisors are not tried near zero.
-/

import DiceFormula.Proofs.Die.Tame
import DiceFormula.Proofs.Roll.Failure

namespace DiceFormula

open Scalar

variable {σ : Type} {t : Table σ Float}

/-! ### Whole rolls -/

theorem Operation.isWhole_place {op : Operation} (hop : op ≠ divide) {left right count : ℚ}
    (hl : left ∈ wholeNumbers) (hr : right ∈ wholeNumbers) (hc : count ∈ wholeNumbers) :
    (op.place left right count).IsWhole := by
  cases op with
  | plus => exact Place.isWhole_round (add_mem hl hr)
  | minus => exact Place.isWhole_round (sub_mem hl hr)
  | multiply => exact Place.isWhole_round (mul_mem hl hr)
  | divide => exact absurd rfl hop
  | eachPlus => exact (Place.isWhole_round (mul_mem hc hr)).shift hl
  | eachMinus => exact (Place.isWhole_round (mul_mem hc hr)).neg.shift hl

/-! ### Counts -/

namespace Pool

variable {p : Pool Float}

/-- A count is the integer part of what was rolled, up to the most dice that a pool may roll. -/
theorem hasValue_of_countOf {x : Float} {v : ℚ} {n : ℕ} (hx : HasValue x v)
    (h : p.countOf x = .ok n) : n ≤ maxRolls ∧ HasValue (trunc x) n := by
  have hmax : HasValue (ofInt maxRolls) maxRolls := hasValue_ofInt_of_le_maxRolls le_rfl
  have htrunc := hx.trunc
  obtain ⟨m, hm⟩ := mem_wholeNumbers.1 (trunc_mem_wholeNumbers v)
  rw [← hm] at htrunc
  simp only [countOf, hmax.lt_iff htrunc, hasValue_one.le_iff htrunc] at h
  split_ifs at h with hlarge hleast
  rw [Except.ok.injEq] at h
  rw [not_lt] at hlarge
  have hleast : 1 ≤ m := by exact_mod_cast hleast
  have hlarge : m ≤ maxRolls := by exact_mod_cast hlarge
  obtain ⟨a, u, hexact, hu⟩ := hasValue_iff.1 htrunc
  cases a with
  | true =>
    have hnonneg := (isDouble_of_exact hexact).1
    have hpos : (1 : ℚ) ≤ m := by exact_mod_cast hleast
    rw [withSign, if_pos rfl] at hu
    linarith
  | false =>
    obtain rfl : u = m := hu
    have hcount : toCount (trunc x) = m.toNat := by
      have hfloor : (m : ℚ).floor = m := Rat.floor_intCast m
      simp only [toCount, hexact]
      rw [hfloor, max_eq_right (by omega)]
    obtain rfl : m.toNat = n := hcount.symm.trans h
    have hcast : ((m.toNat : ℕ) : ℚ) = m := by
      exact_mod_cast congrArg (Int.cast : ℤ → ℚ) (Int.toNat_of_nonneg (by omega : 0 ≤ m))
    exact ⟨by omega, by rwa [hcast]⟩

/-- Only what truncates to less than one is refused for being too small. -/
theorem countOf_ne_countBelowOne {x : Float} (hx : ofInt 1 ≤ trunc x) (q : Pool Float) (y : Float) :
    p.countOf x ≠ .error (.countBelowOne q y) := by
  simp only [countOf, if_pos hx]
  split_ifs <;> rintro ⟨⟩

/-- The sum and the number of the rolls of a pool lie between their bounds. -/
structure Holds (p : Pool Float) (r : Float × ℕ) : Prop where
  sum : (p.bounds noCustom).Encloses r.1
  le_maxRolls : r.2 ≤ maxRolls
  number : (p.counts noCustom).Encloses (ofInt r.2)
  whole : p.isWhole = true → IsWhole r.1

/-- The number of dice that a pool rolls lies between the bounds of its count. -/
theorem rollCount_encloses (hfinite : ∀ count ∈ p.count?, (count.bounds noCustom).Finite)
    (h : ∀ count ∈ p.count?, (count.roll t).Gives (count.bounds noCustom).Encloses) :
    (p.rollCount t).Gives fun n => n ≤ maxRolls ∧ (p.counts noCustom).Encloses (ofInt n) := by
  cases p with
  | single value =>
    rw [rollCount, counts]
    exact RollM.gives_pure ⟨by decide, Bounds.encloses_single hasValue_one.le_self⟩
  | counted count value =>
    rw [rollCount, counts]
    refine (h count rfl).bind fun x hx => ?_
    split
    · rename_i n hn
      obtain ⟨-, v, -, -, hv, -⟩ := hx.exists_values (hfinite count rfl)
      obtain ⟨hle, hvalue⟩ := hasValue_of_countOf hv hn
      refine RollM.gives_pure ⟨hle, (hx.trunc (hfinite count rfl)).congr ?_⟩
      exact hvalue.trans (hasValue_ofInt_of_le_maxRolls hle).symm
    · exact RollM.gives_fail _ _

/-- **A pool rolls between its bounds,** if its die and its count do. -/
theorem Enclosing.rollCounted_holds (hp : p.Enclosing)
    (hfinite : ∀ count ∈ p.count?, (count.bounds noCustom).Finite)
    (hcount : ∀ count ∈ p.count?, (count.roll t).Gives (count.bounds noCustom).Encloses)
    (hvalue : (p.value.roll t).Gives fun x =>
      (p.valueBounds noCustom).Encloses x ∧ (p.isWhole = true → IsWhole x)) :
    (p.rollCounted t).Gives p.Holds := by
  have hneutral : (neutral : Float) ≤ neutral := hasValue_neutral.le_self
  rw [rollCounted_eq]
  refine (rollCount_encloses hfinite hcount).bind fun n hn => ?_
  -- `k` dice add up to at least `k` of the least values, and at most `k` of the greatest.
  refine (totalOf_gives (I := fun k total =>
    (sum (List.replicate k (p.valueBounds noCustom).low) ≤ total ∧
      total ≤ sum (List.replicate k (p.valueBounds noCustom).high)) ∧
        (p.isWhole = true → IsWhole total)) hvalue ?_ ?_ n).mono ?_
  · refine ⟨⟨hneutral, hneutral⟩, fun _ v hv => ?_⟩
    rw [hv.unique hasValue_neutral]
    exact zero_mem _
  · rintro k total x ⟨⟨hl, hh⟩, hwhole⟩ ⟨hx, hxwhole⟩
    obtain ⟨-, v, -, -, hv, -⟩ := hx.exists_values hp.values
    rw [sum_replicate_succ, sum_replicate_succ]
    refine ⟨⟨add_le_add hl hx.1 hp.values.1 hv.isFinite,
      add_le_add hh hx.2 hv.isFinite hp.values.2⟩, fun hw => ?_⟩
    exact (hwhole hw).add (le_self_right hl) hv (hxwhole hw v hv)
  · rintro ⟨total, m⟩ ⟨⟨⟨hl, hh⟩, hwhole⟩, rfl⟩
    obtain ⟨hleast, hgreatest⟩ := hp.adds m hn.1 hn.2
    exact ⟨⟨Scalar.le_trans hleast hl, Scalar.le_trans hh hgreatest⟩, hn.1, hn.2, hwhole⟩

end Pool

/-! ### Chains -/

namespace Chain

/-- Rolls a chain, and gives its total and the number of rolls of its last pool. -/
def rollJoined (t : Table σ Float) (c : Chain Float) : RollM σ Float (Float × ℕ) :=
  RollM.fold joinLink (c.links.map fun l => (l.operation, l.pool.rollCounted t)) (ofInt 0, 1)

theorem rollJoined_head (t : Table σ Float) (op : Operation) (p : Pool Float) :
    (head op p).rollJoined t = joinLink (ofInt 0, 1) (op, p.rollCounted t) := by
  rw [rollJoined, links_head, List.map_singleton, RollM.fold_singleton]

theorem rollJoined_append (t : Table σ Float) (front : Chain Float) (op : Operation)
    (p : Pool Float) : (front.append op p).rollJoined t =
      front.rollJoined t >>= fun before => joinLink before (op, p.rollCounted t) := by
  rw [rollJoined, links_append, List.map_append, List.map_singleton, RollM.fold_concat]
  rfl

end Chain

namespace ChainRange

/-- What the range of a link is computed from is finite. -/
structure Finite (c : ChainRange Float) : Prop where
  values : c.values.Finite
  counts : c.counts.Finite

/-- A total and the number of the last rolls lie within a range. -/
structure Holds (c : ChainRange Float) (r : Float × ℕ) : Prop where
  total : c.values.Encloses r.1
  le_maxRolls : r.2 ≤ Pool.maxRolls
  number : c.counts.Encloses (ofInt r.2)

theorem start_finite : start.Finite where
  values := ⟨hasValue_zero.isFinite, hasValue_zero.isFinite⟩
  counts := ⟨hasValue_one.isFinite, hasValue_one.isFinite⟩

theorem start_holds : start.Holds (ofInt 0, 1) :=
  ⟨Bounds.encloses_single hasValue_zero.le_self, by decide,
    Bounds.encloses_single hasValue_one.le_self⟩

end ChainRange

/-- **Joining a pool keeps to the bounds,** and keeps whole numbers whole unless it divides. -/
theorem joinLink_gives {range : ChainRange Float} {before : Float × ℕ} {op : Operation}
    {p : Pool Float} (hrange : range.Finite) (hbefore : range.Holds before)
    (hp : (p.bounds noCustom).Finite) (hroll : (p.rollCounted t).Gives p.Holds) :
    (joinLink before (op, p.rollCounted t)).Gives fun r =>
      (range.step (Link.range noCustom ⟨op, p⟩)).Holds r ∧
        (op ≠ .divide → IsWhole before.1 → p.isWhole = true → IsWhole r.1) := by
  obtain ⟨total, count⟩ := before
  refine hroll.bind ?_
  rintro ⟨value, rolled⟩ hr
  refine (RollM.gives_note _).bind fun _ _ =>
    RollM.gives_pure ⟨⟨?_, hr.le_maxRolls, hr.number⟩, ?_⟩
  · exact ChainRange.encloses_step hrange.values hrange.counts hp hbefore.total hbefore.number
      hr.sum hr.whole
  · intro hop htotal hwhole
    obtain ⟨-, v, -, -, hv, -⟩ := hbefore.total.exists_values hrange.values
    obtain ⟨-, w, -, -, hw, -⟩ := hr.sum.exists_values hp
    have hcount := Pool.hasValue_ofInt_of_le_maxRolls hbefore.le_maxRolls
    refine isWhole_of_place (Operation.isWhole_place hop (htotal v hv) (hr.whole hwhole w hw) ?_)
      (Operation.place?_combine op hv hw hcount)
    exact intCast_mem_wholeNumbers count

/-- The span of a tame chain is finite. -/
theorem Chain.Checked.span_finite {c : Chain Float} (hc : c.Checked) (h : c.Tame) :
    (c.span noCustom).Finite where
  values := h.finite_bounds
  counts := by
    rw [Chain.span_counts]
    cases hc with
    | head op hp =>
      rw [Chain.Tame] at h
      exact (hp.enclosing h.1).counts
    | append op hf hp =>
      rw [Chain.Tame] at h
      exact (hp.enclosing h.2.1).counts

/-! ### Dice -/

mutual

/-- **A tame die rolls between its bounds,** and whole numbers if it promises them. -/
theorem Die.Checked.roll_holds (ht : t.AnswersInRange) :
    ∀ {d : Die Float}, d.Checked → d.Tame → (d.roll t).Gives fun x =>
      (d.bounds noCustom).Encloses x ∧ (d.isWhole = true → IsWhole x)
  | _, .fixed h, _ => by
    rw [Die.ofFixed_eq_ok h, Die.roll, Die.bounds, Die.isWhole]
    have hnumber := le_self_of_isFinite (Die.isFinite_of_ofFixed h)
    exact RollM.gives_pure ⟨Bounds.encloses_single hnumber, isWhole_of_isWhole⟩
  | _, .uniform u, _ => by
    rw [Die.roll, Die.bounds]
    refine (ht.draw_gives u).bind fun n hn => RollM.gives_pure ⟨?_, fun _ => isWhole_ofInt n⟩
    exact ⟨ofInt_le_ofInt hn.1, ofInt_le_ofInt hn.2⟩
  | _, .pool hp, htame => by
    rw [Die.Tame] at htame
    rw [Die.roll_pool, Die.bounds_pool, Die.isWhole]
    exact (Pool.Checked.rollCounted_holds ht hp htame).bind fun r hr =>
      RollM.gives_pure ⟨hr.sum, hr.whole⟩
  | _, .link hc, htame => by
    rw [Die.Tame] at htame
    rw [Die.roll_link, Die.bounds_link, Die.isWhole, ← Chain.span_values]
    exact (Chain.Checked.rollJoined_holds ht hc htame).bind fun r hr =>
      RollM.gives_pure ⟨hr.1.total, hr.2⟩
  | _, .chain hc, htame => by
    rw [Die.Tame] at htame
    rw [Die.roll_chain, Die.bounds_chain, Die.isWhole, ← Chain.span_values]
    exact (Chain.Checked.rollJoined_holds ht hc htame).bind fun r hr =>
      RollM.gives_pure ⟨hr.1.total, hr.2⟩

@[inherit_doc Die.Checked.roll_holds]
theorem Pool.Checked.rollCounted_holds (ht : t.AnswersInRange) :
    ∀ {p : Pool Float}, p.Checked → p.Tame → (p.rollCounted t).Gives p.Holds
  | _, .single hv, htame => by
    have hp := (Pool.Checked.single hv).enclosing htame
    rw [Pool.Tame] at htame
    refine hp.rollCounted_holds (by rintro _ ⟨⟩) (by rintro _ ⟨⟩) ?_
    rw [Pool.valueBounds, Pool.isWhole]
    exact Die.Checked.roll_holds ht hv htame
  | _, .counted hc hv h, htame => by
    have hp := (Pool.Checked.counted hc hv h).enclosing htame
    obtain rfl := (Pool.ofCount_eq_ok_iff.1 h).2
    rw [Pool.Tame] at htame
    refine hp.rollCounted_holds ?_ ?_ ?_
    · rintro _ ⟨⟩
      exact hc.finite_bounds htame.1
    · rintro _ ⟨⟩
      exact (Die.Checked.roll_holds ht hc htame.1).mono fun _ hx => hx.1
    · rw [Pool.valueBounds, Pool.isWhole]
      exact Die.Checked.roll_holds ht hv htame.2.1

@[inherit_doc Die.Checked.roll_holds]
theorem Chain.Checked.rollJoined_holds (ht : t.AnswersInRange) :
    ∀ {c : Chain Float}, c.Checked → c.Tame → (c.rollJoined t).Gives fun r =>
      (c.span noCustom).Holds r ∧ (c.isWhole = true → IsWhole r.1)
  | _, .head op hp, htame => by
    rw [Chain.Tame] at htame
    rw [Chain.rollJoined_head, Chain.span_head]
    refine (joinLink_gives ChainRange.start_finite ChainRange.start_holds
      (hp.enclosing htame.1).bounds (Pool.Checked.rollCounted_holds ht hp htame.1)).mono ?_
    rintro r ⟨hholds, hwhole⟩
    refine ⟨hholds, fun h => ?_⟩
    rw [Chain.isWhole, Bool.and_eq_true, bne_iff_ne] at h
    exact hwhole h.1 (isWhole_ofInt 0) h.2
  | _, .append op hf hp, htame => by
    rw [Chain.Tame] at htame
    obtain ⟨hfront, hpool, -⟩ := htame
    rw [Chain.rollJoined_append, Chain.span_append]
    refine (Chain.Checked.rollJoined_holds ht hf hfront).bind ?_
    rintro before ⟨hbefore, hbeforeWhole⟩
    refine (joinLink_gives (hf.span_finite hfront) hbefore (hp.enclosing hpool).bounds
      (Pool.Checked.rollCounted_holds ht hp hpool)).mono ?_
    rintro r ⟨hholds, hwhole⟩
    refine ⟨hholds, fun h => ?_⟩
    rw [Chain.isWhole, Bool.and_eq_true, Bool.and_eq_true, bne_iff_ne] at h
    exact hwhole h.1.1 (hbeforeWhole h.2) h.1.2

end

/-! ### Counts that hold -/

/-- An error other than that of a count below one. -/
def RollError.NotBelowOne (e : RollError Float) : Prop := ∀ q x, e ≠ .countBelowOne q x

namespace Pool

variable {count value : Die Float} {p : Pool Float}

/-- **A count that passed the check is not below one,** if the bounds that were checked enclose
it. -/
theorem one_le_trunc_of_encloses {x : Float} (h : ofCount noCustom count value = .ok p)
    (hfinite : (count.bounds noCustom).Finite) (hx : (count.bounds noCustom).Encloses x) :
    ofInt 1 ≤ trunc x := by
  obtain ⟨low, hlow⟩ := exists_hasValue hfinite.1
  have hleast := (Scalar.le_or_lt hasValue_one.le_self hlow.trunc.le_self).resolve_right
    (ofCount_eq_ok_iff.1 h).1
  exact Scalar.le_trans hleast (hx.trunc hfinite).1

theorem rollCount_notBelowOne (ht : t.AnswersInRange) (hc : count.Checked)
    (h : ofCount noCustom count value = .ok p) (htame : count.Tame)
    (hroll : (count.roll t).FailsWith RollError.NotBelowOne) :
    (p.rollCount t).FailsWith RollError.NotBelowOne := by
  have hfinite := hc.finite_bounds htame
  have hholds := hc.roll_holds ht htame
  have hone {x : Float} := one_le_trunc_of_encloses (x := x) h hfinite
  obtain rfl := (ofCount_eq_ok_iff.1 h).2
  rw [rollCount, resolve]
  refine hroll.bind_of_gives hholds fun x hx => ?_
  split
  · exact RollM.failsWith_pure _ _
  · rename_i e he
    refine RollM.failsWith_fail fun q y heq => ?_
    rw [heq] at he
    exact countOf_ne_countBelowOne (hone hx.1) q y he

end Pool

mutual

/-- A die whose counts are tame does not fail by a count below one. -/
theorem Die.Checked.roll_notBelowOne (ht : t.AnswersInRange) : ∀ {d : Die Float}, d.Checked →
    (∀ p ∈ d.pools, ∀ count ∈ p.count?, count.Tame) →
      (d.roll t).FailsWith RollError.NotBelowOne
  | _, .fixed h, _ => by
    rw [Die.ofFixed_eq_ok h, Die.roll]
    exact RollM.failsWith_pure _ _
  | _, .uniform u, _ => by
    rw [Die.roll]
    rintro s e ⟨⟩
  | _, .pool hp, htame => by
    rw [Die.pools] at htame
    rw [Die.roll_pool]
    exact (Pool.Checked.rollCounted_notBelowOne ht hp htame).bind fun r =>
      RollM.failsWith_pure _ _
  | _, .link hc, htame => by
    rw [Die.pools] at htame
    rw [Die.roll_link]
    exact Chain.roll_failsWith (Chain.Checked.links_notBelowOne ht hc htame)
  | _, .chain hc, htame => by
    rw [Die.pools] at htame
    rw [Die.roll_chain]
    exact Chain.roll_failsWith (Chain.Checked.links_notBelowOne ht hc htame)

@[inherit_doc Die.Checked.roll_notBelowOne]
theorem Pool.Checked.rollCounted_notBelowOne (ht : t.AnswersInRange) :
    ∀ {p : Pool Float}, p.Checked → (∀ q ∈ p.pools, ∀ count ∈ q.count?, count.Tame) →
      (p.rollCounted t).FailsWith RollError.NotBelowOne
  | _, .single hv, htame => by
    rw [Pool.pools, List.forall_mem_cons] at htame
    exact Pool.rollCounted_failsWith (RollM.failsWith_pure 1 _)
      (Die.Checked.roll_notBelowOne ht hv htame.2)
  | _, .counted hc hv h, htame => by
    have hcount := Pool.rollCount_notBelowOne (t := t) ht hc h
    obtain rfl := (Pool.ofCount_eq_ok_iff.1 h).2
    simp only [Pool.pools, List.forall_mem_cons, List.forall_mem_append] at htame
    obtain ⟨hself, hcounts, hvalues⟩ := htame
    exact Pool.rollCounted_failsWith
      (hcount (hself _ rfl) (Die.Checked.roll_notBelowOne ht hc hcounts))
      (Die.Checked.roll_notBelowOne ht hv hvalues)

@[inherit_doc Die.Checked.roll_notBelowOne]
theorem Chain.Checked.links_notBelowOne (ht : t.AnswersInRange) :
    ∀ {c : Chain Float}, c.Checked → (∀ p ∈ c.pools, ∀ count ∈ p.count?, count.Tame) →
      ∀ l ∈ c.links, (l.pool.rollCounted t).FailsWith RollError.NotBelowOne
  | _, .head op hp, htame, l, hl => by
    rw [Chain.pools] at htame
    rw [Chain.links_head, List.mem_singleton] at hl
    rw [hl]
    exact Pool.Checked.rollCounted_notBelowOne ht hp htame
  | _, .append op hf hp, htame, l, hl => by
    rw [Chain.pools, List.forall_mem_append] at htame
    rw [Chain.links_append, List.mem_append, List.mem_singleton] at hl
    rcases hl with hl | rfl
    · exact Chain.Checked.links_notBelowOne ht hf htame.1 l hl
    · exact Pool.Checked.rollCounted_notBelowOne ht hp htame.2

end

namespace Pool

variable {count value : Die Float} {p : Pool Float}

/-- Whatever a tame count rolls that passed the check truncates to at least one. -/
theorem one_le_trunc_of_tame (ht : t.AnswersInRange) (hc : count.Checked)
    (h : ofCount noCustom count value = .ok p) (htame : count.Tame) {s : σ} {x : Float}
    (hx : (count.roll t s).outcome = .ok x) : ofInt 1 ≤ trunc x :=
  one_le_trunc_of_encloses h (hc.finite_bounds htame) (hc.roll_holds ht htame s x hx).1

/-- The number of dice is not refused for being below one. -/
theorem rollCount_ne_countBelowOne (ht : t.AnswersInRange) (hc : count.Checked)
    (h : ofCount noCustom count value = .ok p) (htame : count.Tame) (s : σ) (q : Pool Float)
    (x : Float) : (p.rollCount t s).outcome ≠ .error (.countBelowOne q x) := by
  have hcounts : ∀ q ∈ count.pools, ∀ c ∈ q.count?, c.Tame :=
    fun q hq c hcq => htame.of_mem_pools hq hcq
  intro he
  exact rollCount_notBelowOne ht hc h htame (hc.roll_notBelowOne ht hcounts) s _ he q x rfl

/-- Neither together nor separately does a pool fail by a count below one, if all counts inside
are tame. -/
theorem Checked.roll_ne_countBelowOne (ht : t.AnswersInRange) (hp : p.Checked)
    (hcounts : ∀ q ∈ p.pools, ∀ c ∈ q.count?, c.Tame) (s : σ) (q : Pool Float) (x : Float) :
    (p.roll t s).outcome ≠ .error (.countBelowOne q x) ∧
      (p.rollSeparately t s).outcome ≠ .error (.countBelowOne q x) := by
  have hroll := hp.rollCounted_notBelowOne ht hcounts
  have hagree := rollSeparately_agrees_rollCounted t p
  exact ⟨fun he => (hroll.bind fun r => RollM.failsWith_pure _ _) s _ he q x rfl,
    fun he => (RollM.FailsWith.of_agree hagree hroll) s _ he q x rfl⟩

/-- The counts inside a pool are its own, those inside it, and those inside its die. -/
theorem tame_counts (h : ofCount noCustom count value = .ok p) (htame : count.Tame)
    (hvalue : ∀ q ∈ value.pools, ∀ c ∈ q.count?, c.Tame) :
    ∀ q ∈ p.pools, ∀ c ∈ q.count?, c.Tame := by
  obtain rfl := (ofCount_eq_ok_iff.1 h).2
  simp only [pools, List.forall_mem_cons, List.forall_mem_append]
  refine ⟨?_, fun q hq c hcq => htame.of_mem_pools hq hcq, hvalue⟩
  rintro _ ⟨⟩
  exact htame

end Pool

/-- **A tame count holds.**  Whatever a count rolls that passed the check truncates to at least
one, so that rolling the number of dice never fails by a count below one; and neither does rolling
the pool, together or separately, if the counts inside its die are tame as well. -/
theorem Pool.one_le_count (ht : t.AnswersInRange) {count value : Die Float} {p : Pool Float}
    (hc : count.Checked) (hv : value.Checked) (h : ofCount noCustom count value = .ok p)
    (htame : count.Tame) :
    (∀ s x, (count.roll t s).outcome = .ok x → ofInt 1 ≤ trunc x) ∧
      (∀ s q x, (p.rollCount t s).outcome ≠ .error (.countBelowOne q x)) ∧
      ((∀ q ∈ value.pools, ∀ c ∈ q.count?, c.Tame) →
        ∀ s q x, (p.roll t s).outcome ≠ .error (.countBelowOne q x) ∧
          (p.rollSeparately t s).outcome ≠ .error (.countBelowOne q x)) :=
  ⟨fun _ _ => one_le_trunc_of_tame ht hc h htame, rollCount_ne_countBelowOne ht hc h htame,
    fun hvalue => Checked.roll_ne_countBelowOne ht (.counted hc hv h) (tame_counts h htame hvalue)⟩

/-- The hypotheses of `Pool.one_le_count` are satisfiable: half of three six-sided dice, as a
count of eight-sided dice. -/
theorem Pool.one_le_count_halves :
    let dice : Pool Float := .counted (.ofInt 3) (.uniform (.d 6 (by decide)))
    let half : Chain Float := (Chain.ofPool dice).append .divide (.single (.ofInt 2))
    let value : Die Float := .uniform (.d 8 (by decide))
    let t : Table Source Float := .ofSource Source.nextInt
    t.AnswersInRange ∧ (Die.chain half).Checked ∧ (Die.chain half).Tame ∧
      ofCount noCustom (.chain half) value = .ok (.counted (.chain half) value) ∧
      (∀ s x, ((Die.chain half).roll t s).outcome = .ok x → ofInt 1 ≤ trunc x) ∧
      ∀ s q x, ((Pool.counted (.chain half) value).roll t s).outcome ≠
        .error (.countBelowOne q x) := by
  intro dice half value t
  have ht : t.AnswersInRange := fun _ _ s _ h _ => Source.nextInt_mem h s
  have hone : HasValue (dice.valueBounds noCustom).low (1 : ℤ) := hasValue_ofInt (by decide)
  have hsix : HasValue (dice.valueBounds noCustom).high (6 : ℤ) := hasValue_ofInt (by decide)
  have hadds : dice.Adds :=
    adds_of_whole (by decide +kernel) hone hsix (by norm_num) (by norm_num)
  have hdice : dice.Checked :=
    .counted (.fixed (if_pos (by decide +kernel))) (.uniform _) (if_neg (by decide +kernel))
  have hhalf : half.Checked :=
    .append .divide (.head .plus hdice) (.single (.fixed (if_pos (by decide +kernel))))
  have htame : (Die.chain half).Tame := by
    simp only [half, dice, Chain.ofPool, Die.Tame, Chain.Tame, Pool.Tame, Die.ofInt, true_and]
    exact ⟨⟨⟨by decide +kernel, hadds⟩, by decide +kernel⟩, by decide +kernel⟩
  have hcount : ofCount noCustom (.chain half) value = .ok (.counted (.chain half) value) :=
    if_neg (by decide +kernel)
  obtain ⟨hrolls, -, hpool⟩ := one_le_count ht (.chain hhalf) (.uniform _) hcount htame
  refine ⟨ht, .chain hhalf, htame, hcount, hrolls, fun s q x => (hpool ?_ s q x).1⟩
  rintro _ ⟨⟩

/-- **A count with integer ends holds.**  If whatever is rolled more than once inside a count has
integer ends of a size of at most nine thousand million, and no bounds inside are infinite, then a
count that passed the check never rolls less than one.  Such sums are exact, so there is nothing
to ask of them. -/
theorem Pool.one_le_whole_count (ht : t.AnswersInRange) {count value : Die Float}
    {p : Pool Float} (hc : count.Checked) (hv : value.Checked)
    (h : ofCount noCustom count value = .ok p) (hwhole : count.WholeEnds) :
    (∀ s x, (count.roll t s).outcome = .ok x → ofInt 1 ≤ trunc x) ∧
      (∀ s q x, (p.rollCount t s).outcome ≠ .error (.countBelowOne q x)) ∧
      ((∀ q ∈ value.pools, ∀ c ∈ q.count?, c.WholeEnds) →
        ∀ s q x, (p.roll t s).outcome ≠ .error (.countBelowOne q x) ∧
          (p.rollSeparately t s).outcome ≠ .error (.countBelowOne q x)) := by
  have htame := hc.tame hwhole
  refine ⟨fun _ _ => one_le_trunc_of_tame ht hc h htame,
    rollCount_ne_countBelowOne ht hc h htame, fun hcounts => ?_⟩
  have hvalue : ∀ q ∈ value.pools, ∀ c ∈ q.count?, c.Tame := fun q hq c hcq =>
    ((hv.of_mem_pools hq).of_count? hcq).tame (hcounts q hq c hcq)
  exact Checked.roll_ne_countBelowOne ht (.counted hc hv h) (tame_counts h htame hvalue)

/-- In general a count that passed the check may roll less than one: ten times `0.1` is one, but
ten `0.1` add up to less. -/
theorem Pool.not_one_le_count_tenths :
    let tenth : Float := Scalar.ofDecimal ⟨false, 1, 1⟩
    let count : Die Float := .pool (.counted (.ofInt 10) (.fixed tenth))
    let value : Die Float := .uniform (.d 6 (by decide))
    let t : Table Source Float := .ofSource Source.nextInt
    let s : Source := .steps 1 1
    let x : Float := sum (List.replicate 10 tenth)
    t.AnswersInRange ∧ count.Checked ∧
      Pool.ofCount noCustom count value = .ok (.counted count value) ∧
      (count.roll t s).outcome = .ok x ∧ trunc x < ofInt 1 ∧
      ((Pool.counted count value).roll t s).outcome =
        .error (.countBelowOne (.counted count value) (trunc x)) := by
  intro tenth count value t s x
  have hrolled : (count.roll t s).outcome = .ok x := rfl
  have hless : trunc x < ofInt 1 := by decide +kernel
  have hrefused : (Pool.counted count value).countOf x =
      .error (.countBelowOne (.counted count value) (trunc x)) := by
    rw [Pool.countOf, if_neg (by decide +kernel), if_neg (by decide +kernel)]
  have hcount : ((Pool.counted count value).rollCount t s).outcome =
      .error (.countBelowOne (.counted count value) (trunc x)) := by
    rw [Pool.rollCount, Pool.resolve]
    refine RollM.outcome_bind_eq_error.2 (.inr ⟨x, hrolled, ?_⟩)
    rw [hrefused]
    rfl
  have hchecked : count.Checked :=
    .pool (.counted (.fixed (if_pos (by decide +kernel))) (.fixed (if_pos (by decide +kernel)))
      (if_neg (by decide +kernel)))
  refine ⟨fun _ _ s _ h _ => Source.nextInt_mem h s, hchecked, if_neg (by decide +kernel),
    hrolled, hless, ?_⟩
  refine RollM.outcome_bind_eq_error.2 (.inl ?_)
  rw [Pool.rollCounted_eq]
  exact RollM.outcome_bind_eq_error.2 (.inl hcount)

end DiceFormula
