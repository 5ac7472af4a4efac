/-
# Flat pools reach their bounds

A flat pool rolls a fixed value or an interval, once or as often as a fixed value or an
interval says.  This module shows what such a pool can roll, that is, what it rolls for
some draws in range, with a number of dice that its count allows (`Pool.CanRoll`).

It can roll both of its bounds, with all dice at a bound of theirs
(`Pool.Flat.canRoll_ends`).  As a divisor it can roll every operand that the bounds of a
link are computed from (`Pool.Flat.canRoll_divisor`).  For these it has to come near
zero, which it does if it rolls intervals: the sums of `n` dice from `a` to `b` are all
the whole numbers from `n * a` to `n * b` (`exists_sum_eq`), among them `1`, `-1` and
`0` where these lie between the bounds.  A fixed divisor need not: it gives the same
result at each of its operands (`Pool.combine_fixed_divisor`).
-/

import DiceFormula.Die.Build
import DiceFormula.Proofs.Die.Enclosure
import DiceFormula.Proofs.Roll.Replay

namespace DiceFormula

/-- **Sums of `n` whole numbers from `a` to `b`** are all whole numbers from `n * a` to
`n * b`. -/
theorem exists_sum_eq {a b : ℤ} (hab : a ≤ b) (n : ℕ) :
    ∀ k : ℤ, n * a ≤ k → k ≤ n * b →
      ∃ ks : List ℤ, ks.length = n ∧ (∀ i ∈ ks, a ≤ i ∧ i ≤ b) ∧ ks.sum = k := by
  induction n with
  | zero =>
    intro k hl hh
    refine ⟨[], rfl, by simp, ?_⟩
    rw [List.sum_nil]
    simp at hl hh
    omega
  | succ n ih =>
    intro k hl hh
    rw [Nat.cast_succ, add_one_mul] at hl hh
    -- The first number is the least that leaves no more than `n * b` for the others.
    have hn : (n : ℤ) * a ≤ n * b := mul_le_mul_of_nonneg_left hab (Int.natCast_nonneg n)
    obtain ⟨ks, rfl, hks, hsum⟩ := ih (k - max a (k - n * b)) (by omega) (by omega)
    refine ⟨max a (k - ks.length * b) :: ks, rfl, List.forall_mem_cons.2 ⟨by omega, hks⟩, ?_⟩
    rw [List.sum_cons, hsum]
    omega

/-- A whole number near zero that lies between the sums of `m` to `n` numbers from `a` to
`b` lies between those of `m` numbers. -/
theorem mul_le_of_natAbs_le_one {a b k : ℤ} {m n : ℕ} (hm : 1 ≤ m) (hmn : m ≤ n)
    (hl : min (m * a) (n * a) ≤ k) (hh : k ≤ max (m * b) (n * b)) (hk : k.natAbs ≤ 1) :
    m * a ≤ k ∧ k ≤ m * b := by
  constructor
  · rcases le_or_gt 0 a with ha | ha
    · have : (m : ℤ) * a ≤ n * a := mul_le_mul_of_nonneg_right (by omega) ha
      omega
    · have : (m : ℤ) * a ≤ 1 * a := mul_le_mul_of_nonpos_right (by omega) ha.le
      omega
  · rcases le_or_gt b 0 with hb | hb
    · have : (n : ℤ) * b ≤ m * b := mul_le_mul_of_nonpos_right (by omega) hb
      omega
    · have : 1 * b ≤ (m : ℤ) * b := mul_le_mul_of_nonneg_right (by omega) hb.le
      omega

theorem Scalar.sum_rat (xs : List ℚ) : Scalar.sum xs = xs.sum := by
  suffices ∀ a : ℚ, xs.foldl (· + ·) a = a + xs.sum by
    rw [Scalar.sum, this, Scalar.neutral_rat, zero_add]
  induction xs with
  | nil => simp
  | cons x xs ih =>
    intro a
    rw [List.foldl_cons, ih, List.sum_cons, add_assoc]

/-- A pool of simple dice, whose count, if it has one, is simple too.  The count has passed
the check of `Pool.ofCount`, and never asks for more dice than may be rolled. -/
structure Pool.Flat (p : Pool ℚ) : Prop where
  value : p.value.Simple
  count : ∀ count ∈ p.count?, count.Simple ∧ Pool.ofCount noCustom count p.value = .ok p
  counts_le : (p.counts noCustom).high ≤ Pool.maxRolls

/-- A pool that may be divided by: intervals, or one fixed value. -/
def Pool.IsDivisor (p : Pool ℚ) : Prop :=
  (∃ u, p.value = .uniform u) ∨ ∃ x, p = .single (.fixed x)

/-- A pool rolls a value for some draws, with a number of dice that its count allows. -/
def Pool.CanRoll (p : Pool ℚ) (x : ℚ) : Prop :=
  ∃ n : ℕ, (p.counts noCustom).Contains n ∧ (p.rollCounted Replay.table).CanGive (x, n)

namespace Die.Simple

/-- A simple die can show both of its bounds. -/
theorem canGive_bounds {d : Die ℚ} (hd : d.Simple) :
    (d.roll Replay.table).CanGive (d.bounds noCustom).low ∧
      (d.roll Replay.table).CanGive (d.bounds noCustom).high := by
  cases hd with
  | fixed x =>
    rw [Die.roll, Die.bounds]
    exact ⟨.pure x, .pure x⟩
  | uniform u =>
    have h := u.min_le_max
    rw [Die.roll, Die.bounds]
    exact ⟨(RollM.CanGive.draw ⟨le_rfl, by omega⟩).bind (.pure _),
      (RollM.CanGive.draw ⟨h, by omega⟩).bind (.pure _)⟩

end Die.Simple

theorem Uniform.canGive_roll (u : Uniform) {k : ℤ} (hk : u.min ≤ k ∧ k ≤ u.max) :
    ((Die.uniform u : Die ℚ).roll Replay.table).CanGive k := by
  rw [Die.roll]
  exact (RollM.CanGive.draw ⟨hk.1, Int.lt_add_one_of_le hk.2⟩).bind (.pure _)

namespace Pool

theorem canGive_resolve {p : Pool ℚ} {count : RollM (List Int) ℚ ℚ} {x : ℚ} {n : ℕ}
    (hx : count.CanGive x) (hn : p.countOf x = .ok n) : (p.resolve count).CanGive n := by
  refine hx.bind ?_
  rw [hn]
  exact .pure n

/-- A pool can roll any values that its die can show, as many as its count allows. -/
theorem canGive_rollCounted {p : Pool ℚ} (as : List ℚ)
    (hn : (p.rollCount Replay.table).CanGive as.length)
    (h : ∀ a ∈ as, (p.value.roll Replay.table).CanGive a) :
    (p.rollCounted Replay.table).CanGive (as.sum, as.length) := by
  rw [Pool.rollCounted_eq, ← Scalar.sum_rat]
  exact hn.bind ((RollM.CanGive.total h).bind ((RollM.CanGive.note _).bind (.pure _)))

/-- A pool can roll the same value with each of its dice. -/
theorem canGive_rollCounted_mul {p : Pool ℚ} {v : ℚ} {k : ℕ}
    (hv : (p.value.roll Replay.table).CanGive v) (hk : (p.rollCount Replay.table).CanGive k) :
    (p.rollCounted Replay.table).CanGive (k * v, k) := by
  have h := canGive_rollCounted (List.replicate k v) (by rwa [List.length_replicate])
    fun a ha => by rwa [List.eq_of_mem_replicate ha]
  rwa [List.length_replicate, List.sum_replicate, nsmul_eq_mul] at h

theorem valueBounds_eq (b : CustomDie → Bounds ℚ) (p : Pool ℚ) :
    p.valueBounds b = p.value.bounds b := by
  cases p <;> rw [valueBounds, value]

theorem bounds_single_fixed (b : CustomDie → Bounds ℚ) (x : ℚ) :
    (single (.fixed x)).bounds b = .single x := by
  rw [bounds_single, Die.bounds]

/-- A fixed divisor gives at each operand that is tried for it what it always gives. -/
theorem combine_fixed_divisor {x e : ℚ}
    (he : e ∈ (Link.range noCustom ⟨.divide, .single (.fixed x)⟩).operands) (left count : ℚ) :
    Operation.divide.combine left x count = Operation.divide.combine left e count := by
  have hvalues : (Link.range noCustom ⟨.divide, .single (.fixed x)⟩).values = .single x :=
    bounds_single_fixed noCustom x
  have hx : e = x ∨ (|x| < 1 / 10000 ∧ e = 0) := by
    rw [LinkRange.mem_operands_divide rfl, hvalues] at he
    rcases he with he | ⟨h, rfl⟩ | ⟨h, rfl⟩ | ⟨h, rfl⟩
    · exact .inl (by simpa [Bounds.single] using he)
    · exact .inl (max_eq_left h)
    · exact .inl (min_eq_left h)
    · exact .inr ⟨abs_lt.2 h.symm, rfl⟩
  rcases hx with rfl | ⟨h, rfl⟩
  · rfl
  · rw [Operation.combine_divide_of_negligible _ _ (abs_lt.1 h),
      Operation.combine_divide_of_negligible _ _ (by norm_num)]

/-- The bounds of a pool of intervals are whole. -/
theorem bounds_eq_intCast {p : Pool ℚ} {u : Uniform} (hu : p.value = .uniform u) {m n : ℕ}
    (hc : p.counts noCustom = ⟨m, n⟩) :
    p.bounds noCustom =
      ⟨(min (m * u.min) (n * u.min) : ℤ), (max (m * u.max) (n * u.max) : ℤ)⟩ := by
  rw [Pool.bounds, valueBounds_eq, Bounds.times_rat, hc, hu, Die.bounds]
  push_cast
  rfl

namespace Flat

variable {p : Pool ℚ}

/-- The bounds of a flat count are numbers of dice, and every number between them can be
rolled. -/
theorem exists_counts (hp : p.Flat) :
    ∃ m n : ℕ, 1 ≤ m ∧ m ≤ n ∧ p.counts noCustom = ⟨m, n⟩ ∧
      ∀ k, m ≤ k → k ≤ n → (p.rollCount Replay.table).CanGive k := by
  cases p with
  | single value =>
    refine ⟨1, 1, le_rfl, le_rfl, ?_, fun k h₁ h₂ => ?_⟩
    · rw [Pool.counts, Scalar.ofInt_rat, Int.cast_one, Nat.cast_one, Bounds.single]
    · rw [le_antisymm h₂ h₁]
      exact .pure 1
  | counted count value =>
    obtain ⟨hc, hok⟩ := hp.count count rfl
    have hmax := hp.counts_le
    have hmin : 1 ≤ (Scalar.trunc (count.bounds noCustom).low : ℚ) := by
      rw [Pool.ofCount] at hok
      split_ifs at hok with h
      exact not_lt.1 h
    rw [Pool.counts, Bounds.trunc] at hmax ⊢
    cases hc with
    | fixed x =>
      rw [Die.bounds, Bounds.single] at hmax hmin ⊢
      have hn := Scalar.toCount_rat (Scalar.trunc_mem_wholeNumbers x) hmin
      have hone : (1 : ℚ) ≤ (Scalar.toCount (Scalar.trunc x) : ℕ) := hmin.trans_eq hn.symm
      refine ⟨_, _, Nat.one_le_cast.1 hone, le_rfl, by rw [hn], fun k h₁ h₂ => ?_⟩
      obtain rfl := le_antisymm h₂ h₁
      rw [Pool.rollCount, Die.roll]
      exact canGive_resolve (.pure x) (Pool.countOf_eq_ok_iff.2 ⟨hmin, hmax, hn⟩)
    | uniform w =>
      simp only [Die.bounds, Scalar.ofInt_rat, Scalar.trunc_intCast] at hmax hmin ⊢
      have hone : 1 ≤ w.min := by exact_mod_cast hmin
      have hend : w.max ≤ Pool.maxRolls := by exact_mod_cast hmax
      have hle := w.min_le_max
      obtain ⟨m, hm⟩ := Int.eq_ofNat_of_zero_le (a := w.min) (by omega)
      obtain ⟨n, hn⟩ := Int.eq_ofNat_of_zero_le (a := w.max) (by omega)
      refine ⟨m, n, by omega, by omega, by rw [hm, hn]; rfl, fun k h₁ h₂ => ?_⟩
      have hcount : (Scalar.trunc ((k : ℤ) : ℚ) : ℚ) = k := Scalar.trunc_intCast k
      rw [Pool.rollCount]
      refine canGive_resolve (x := (k : ℤ)) ?_ (Pool.countOf_eq_ok_iff.2 ?_)
      · exact w.canGive_roll (k := k) ⟨by omega, by omega⟩
      · have hk : 1 ≤ k ∧ k ≤ Pool.maxRolls := by omega
        rw [hcount]
        exact ⟨Nat.one_le_cast.2 hk.1, Nat.cast_le.2 hk.2, rfl⟩

/-- **Both bounds of a flat pool can be rolled,** with all dice at a bound of theirs, and
either as few or as many of them as the count allows. -/
theorem canRoll_ends (hp : p.Flat) :
    ∀ e ∈ [(p.bounds noCustom).low, (p.bounds noCustom).high], p.CanRoll e := by
  obtain ⟨m, n, -, hmn, hcounts, hroll⟩ := hp.exists_counts
  obtain ⟨hlow, hhigh⟩ := hp.value.canGive_bounds
  have equal : ∀ {v : ℚ}, (p.value.roll Replay.table).CanGive v → ∀ k, m ≤ k → k ≤ n →
      p.CanRoll (k * v) := by
    intro v hv k hm hn
    refine ⟨k, ?_, canGive_rollCounted_mul hv (hroll k hm hn)⟩
    rw [hcounts]
    exact ⟨Nat.cast_le.2 hm, Nat.cast_le.2 hn⟩
  rw [Pool.bounds, valueBounds_eq, Bounds.times_rat, hcounts]
  simp only [List.mem_pair, forall_eq_or_imp, forall_eq]
  constructor
  · rcases min_choice (m * (p.value.bounds noCustom).low) (n * (p.value.bounds noCustom).low)
      with h | h
    · rw [h]
      exact equal hlow m le_rfl hmn
    · rw [h]
      exact equal hlow n hmn le_rfl
  · rcases max_choice (m * (p.value.bounds noCustom).high) (n * (p.value.bounds noCustom).high)
      with h | h
    · rw [h]
      exact equal hhigh m le_rfl hmn
    · rw [h]
      exact equal hhigh n hmn le_rfl

/-- **Whole numbers near zero can be rolled** by a pool of intervals, whenever they lie
between its bounds. -/
theorem canRoll_near_zero (hp : p.Flat) {u : Uniform} (hu : p.value = .uniform u) {k : ℤ}
    (hk : k.natAbs ≤ 1) (h : (p.bounds noCustom).Contains k) :
    p.CanRoll k := by
  obtain ⟨m, n, hone, hmn, hcounts, hroll⟩ := hp.exists_counts
  rw [bounds_eq_intCast hu hcounts] at h
  obtain ⟨hl, hh⟩ := mul_le_of_natAbs_le_one hone hmn (Int.cast_le.1 h.1) (Int.cast_le.1 h.2) hk
  obtain ⟨ks, rfl, hks, hsum⟩ := exists_sum_eq u.min_le_max m k hl hh
  refine ⟨ks.length, ?_, ?_⟩
  · rw [hcounts]
    exact ⟨le_rfl, Nat.cast_le.2 hmn⟩
  · have hcast : ((ks.map Int.cast).sum : ℚ) = k := by
      rw [← hsum]
      exact (map_list_sum (Int.castRingHom ℚ) ks).symm
    have hrolls := canGive_rollCounted (ks.map Int.cast)
      (by rw [List.length_map]; exact hroll _ le_rfl hmn) fun a ha => by
        obtain ⟨i, hi, rfl⟩ := List.mem_map.1 ha
        rw [hu]
        exact u.canGive_roll (hks i hi)
    rwa [hcast, List.length_map] at hrolls

/-- Every operand that is tried for a divisor of intervals can be rolled. -/
theorem canRoll_divisor (hp : p.Flat) {u : Uniform} (hu : p.value = .uniform u) :
    ∀ e ∈ (Link.range noCustom ⟨.divide, p⟩).operands, p.CanRoll e := by
  have hw : p.isWhole = true := by
    cases p with
    | single value => rw [show value = .uniform u from hu, Pool.isWhole, Die.isWhole]
    | counted count value => rw [show value = .uniform u from hu, Pool.isWhole, Die.isWhole]
  have hleast : (Link.range noCustom ⟨.divide, p⟩).leastDivisor = 1 := if_pos hw
  have hvalues : (Link.range noCustom ⟨.divide, p⟩).values = p.bounds noCustom := rfl
  have near : ∀ k : ℤ, k.natAbs ≤ 1 → (p.bounds noCustom).Contains k → p.CanRoll k :=
    fun k hk h => hp.canRoll_near_zero hu hk h
  intro e he
  rw [LinkRange.mem_operands_divide rfl, hleast, hvalues] at he
  rcases he with he | ⟨h, rfl⟩ | ⟨h, rfl⟩ | ⟨h, rfl⟩
  · exact hp.canRoll_ends e he
  · rcases le_total (p.bounds noCustom).low 1 with hl | hl
    · rw [max_eq_right hl, ← Int.cast_one]
      exact near 1 le_rfl ⟨by rwa [Int.cast_one], by rwa [Int.cast_one]⟩
    · rw [max_eq_left hl]
      exact hp.canRoll_ends _ List.mem_cons_self
  · rcases le_total (p.bounds noCustom).high (-1) with hh | hh
    · rw [min_eq_left hh]
      exact hp.canRoll_ends _ (List.mem_cons_of_mem _ (List.mem_singleton_self _))
    · rw [min_eq_right hh, ← Int.cast_one, ← Int.cast_neg]
      refine near (-1) le_rfl ⟨?_, ?_⟩
      · rwa [Int.cast_neg, Int.cast_one]
      · rwa [Int.cast_neg, Int.cast_one]
  · -- The bounds are whole, so zero lies between them.
    obtain ⟨m, n, -, -, hcounts, -⟩ := hp.exists_counts
    rw [← Int.cast_zero]
    refine near 0 (Nat.zero_le 1) ?_
    rw [bounds_eq_intCast hu hcounts] at h ⊢
    have hl : ((min (m * u.min) (n * u.min) : ℤ) : ℚ) < (1 : ℤ) := h.1.trans (by norm_num)
    have hh : ((-1 : ℤ) : ℚ) < (max (m * u.max) (n * u.max) : ℤ) := lt_trans (by norm_num) h.2
    rw [Int.cast_lt] at hl hh
    exact ⟨Int.cast_le.2 (by omega), Int.cast_le.2 (by omega)⟩

/-- **Every operand of a link can be rolled,** or one that gives the same result. -/
theorem canRoll_operand (hp : p.Flat) {op : Operation} (hd : op = .divide → p.IsDivisor) :
    ∀ e ∈ (Link.range noCustom ⟨op, p⟩).operands, ∃ x, p.CanRoll x ∧
      ∀ left count : ℚ, op.combine left x count = op.combine left e count := by
  intro e he
  by_cases h : op = .divide
  · subst h
    rcases hd rfl with ⟨u, hu⟩ | ⟨x, rfl⟩
    · exact ⟨e, hp.canRoll_divisor hu e he, fun _ _ => rfl⟩
    · have hroll := hp.canRoll_ends _ List.mem_cons_self
      rw [bounds_single_fixed] at hroll
      exact ⟨x, hroll, combine_fixed_divisor he⟩
  · rw [LinkRange.operands_of_ne_divide h] at he
    exact ⟨e, hp.canRoll_ends e he, fun _ _ => rfl⟩

end Flat
end Pool
end DiceFormula
