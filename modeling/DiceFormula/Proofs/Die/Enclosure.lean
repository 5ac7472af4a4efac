/-
# Bounds enclose every roll

The bounds of a die are computed without rolling it, and every roll that succeeds
lies between them (`Die.roll_mem_bounds`).  This holds at every table that answers
draws in range, for dice of any nesting, as long as the custom dice inside keep
their bounds and roll within them.

The proof follows the die down to its leaves.  A pool of `n` dice rolls at least
`n` times the lower bound of its die, and `n` lies between its bounds since the
integer part is monotone.  A chain carries along its range, which after every link
contains both the total and the number of rolls (`ChainRange.contains_step`).
-/

import DiceFormula.Die.Build
import DiceFormula.Proofs.Die.Corner
import DiceFormula.Proofs.Die.Parts
import DiceFormula.Proofs.Die.Whole
import DiceFormula.Random.Source

namespace DiceFormula

variable {σ : Type}

namespace Table

/-- A table that answers every draw from a range of 64-bit integers that is not empty
with an integer of that range. -/
def AnswersInRange {α : Type} (t : Table σ α) : Prop :=
  ∀ low high s, smallestInt ≤ low → low < high → high ≤ largestInt →
    low ≤ (t.nextInt low high s).1 ∧ (t.nextInt low high s).1 < high

/-- A custom die whose bounds never change, and which never rolls beyond them. -/
structure Steady (t : Table σ ℚ) (k : CustomDie) : Prop where
  bounds_eq : ∀ s s', t.customBounds s k = t.customBounds s' k
  contains_roll : ∀ s x, (t.customRoll k s).outcome = .ok x → (t.customBounds s k).Contains x

theorem Steady.rollCustom_gives {t : Table σ ℚ} {k : CustomDie} (h : t.Steady k) (s : σ) :
    (t.rollCustom k).Gives (t.customBounds s k).Contains := by
  intro s' x hx
  rw [rollCustom] at hx
  split_ifs at hx
  · cases hx
  · rw [h.bounds_eq s s']
    exact h.contains_roll s' x hx

theorem AnswersInRange.draw_gives {α : Type} {t : Table σ α} (h : t.AnswersInRange)
    (u : Uniform) : (t.draw u.min (u.max + 1)).Gives fun n => u.min ≤ n ∧ n ≤ u.max := by
  intro s n hn
  cases hn
  obtain ⟨hl, hh⟩ := h u.min (u.max + 1) s u.smallest_le_min
    (Int.lt_add_one_of_le u.min_le_max) (Int.add_one_le_of_lt u.max_lt_largest)
  exact ⟨hl, Int.le_of_lt_add_one hh⟩

end Table

/-- A count is the integer part of what was rolled, from one up to the most dice that a
pool may roll. -/
theorem Pool.countOf_eq_ok_iff {p : Pool ℚ} {x : ℚ} {n : ℕ} :
    p.countOf x = .ok n ↔
      1 ≤ (Scalar.trunc x : ℚ) ∧ (Scalar.trunc x : ℚ) ≤ Pool.maxRolls ∧
        (n : ℚ) = Scalar.trunc x := by
  have hone : (Scalar.ofInt 1 : ℚ) = 1 := by rw [Scalar.ofInt_rat, Int.cast_one]
  have hmax : (Scalar.ofInt Pool.maxRolls : ℚ) = Pool.maxRolls := rfl
  simp only [Pool.countOf, hone, hmax]
  split_ifs with h₁ h₂
  · simp only [false_iff]
    exact fun h => absurd h.2.1 (not_le.2 h₁)
  · have hn := Scalar.toCount_rat (Scalar.trunc_mem_wholeNumbers x) h₂
    rw [Except.ok.injEq]
    constructor
    · rintro rfl
      exact ⟨h₂, not_lt.1 h₁, hn⟩
    · rintro ⟨-, -, h⟩
      exact_mod_cast hn.trans h.symm
  · simp only [false_iff]
    exact fun h => absurd h.1 h₂

section

variable {t : Table σ ℚ} {b : CustomDie → Bounds ℚ}

/-- The number of dice that a pool rolls lies between the bounds of its count. -/
theorem Pool.rollCount_gives {p : Pool ℚ}
    (h : ∀ count ∈ p.count?, (count.roll t).Gives (count.bounds b).Contains) :
    (p.rollCount t).Gives fun n => (p.counts b).Contains n := by
  cases p with
  | single value =>
    rw [Pool.rollCount, Pool.counts]
    exact RollM.gives_pure (Bounds.contains_single _)
  | counted count value =>
    rw [Pool.rollCount, Pool.counts]
    refine (h count rfl).bind fun x hx => ?_
    split
    · rename_i n hn
      refine RollM.gives_pure ?_
      rw [(Pool.countOf_eq_ok_iff.1 hn).2.2]
      exact hx.trunc
    · exact RollM.gives_fail _ _

/-- A pool rolls a sum between its bounds, with a number of dice between theirs. -/
theorem Pool.rollCounted_gives {p : Pool ℚ}
    (hc : ∀ count ∈ p.count?, (count.roll t).Gives (count.bounds b).Contains)
    (hv : (p.value.roll t).Gives (p.valueBounds b).Contains) :
    (p.rollCounted t).Gives fun r => (p.bounds b).Contains r.1 ∧ (p.counts b).Contains r.2 := by
  rw [Pool.rollCounted_eq, Pool.bounds]
  refine (Pool.rollCount_gives hc).bind fun n hn => ?_
  -- `k` dice add up to at least `k` times the lower bound and at most `k` times the upper.
  refine (Pool.totalOf_gives (I := fun k sum => k * (p.valueBounds b).low ≤ sum ∧
    sum ≤ k * (p.valueBounds b).high) hv ?_ ?_ n).mono ?_
  · rw [Scalar.neutral_rat]
    simp
  · rintro k sum x ⟨hl, hh⟩ ⟨hxl, hxh⟩
    rw [Nat.cast_succ, add_one_mul, add_one_mul]
    exact ⟨add_le_add hl hxl, add_le_add hh hxh⟩
  · rintro ⟨sum, m⟩ ⟨⟨hl, hh⟩, rfl⟩
    exact ⟨Bounds.times_contains hn hl hh, hn⟩

/-- A chain rolls a total between its bounds. -/
theorem Chain.roll_gives_bounds {c : Chain ℚ}
    (h : ∀ l ∈ c.links, (l.pool.rollCounted t).Gives fun r =>
      (l.pool.bounds b).Contains r.1 ∧ (l.pool.counts b).Contains r.2) :
    (c.roll t).Gives (c.bounds b).Contains := by
  let Holds (range : ChainRange ℚ) (before : ℚ × ℕ) : Prop :=
    range.values.Contains before.1 ∧ range.counts.Contains before.2
  let next (range : ChainRange ℚ) (l : Link ℚ) : ChainRange ℚ := range.step (l.range b)
  refine (Chain.roll_gives (g := next) (I := Holds) ?_ (k := .start) ?_).mono ?_
  · rintro l hl range ⟨total, count⟩ ⟨htotal, hcount⟩
    have whole : (l.pool.rollCounted t).Gives fun r =>
        l.pool.isWhole = true → r.1 ∈ wholeNumbers := by
      by_cases hw : l.pool.isWhole = true
      · exact (Pool.rollCounted_whole t l.pool hw).mono fun _ hr _ => hr
      · exact fun _ _ _ hw' => absurd hw' hw
    refine ((h l hl).and whole).mono ?_
    rintro r ⟨⟨hr, hn⟩, hw⟩
    exact ⟨ChainRange.contains_step htotal hcount hr hw, hn⟩
  · exact ⟨Bounds.contains_single _, Bounds.contains_single _⟩
  · rintro x ⟨n, hx, -⟩
    rwa [Chain.bounds, List.foldl_map]

end

mutual

/-- A die rolls between its bounds, if its custom dice do. -/
theorem Die.roll_gives_bounds {t : Table σ ℚ} {b : CustomDie → Bounds ℚ} (ht : t.AnswersInRange) :
    ∀ d : Die ℚ, (∀ k, .custom k ∈ d.leaves → (t.rollCustom k).Gives (b k).Contains) →
      (d.roll t).Gives (d.bounds b).Contains
  | .fixed value, _ => by
    rw [Die.roll, Die.bounds]
    exact RollM.gives_pure (Bounds.contains_single value)
  | .uniform u, _ => by
    rw [Die.roll, Die.bounds]
    refine (ht.draw_gives u).bind fun n hn => RollM.gives_pure ?_
    exact ⟨Int.cast_le.2 hn.1, Int.cast_le.2 hn.2⟩
  | .pool p, h => by
    rw [Die.leaves] at h
    rw [Die.roll_pool, Die.bounds_pool]
    obtain ⟨hc, hv⟩ := Pool.parts_give_bounds ht p h
    exact (Pool.rollCounted_gives hc hv).bind fun r hr => RollM.gives_pure hr.1
  | .link c, h => by
    rw [Die.leaves] at h
    rw [Die.roll_link, Die.bounds_link]
    exact Chain.roll_gives_bounds (Chain.links_give_bounds ht c h)
  | .chain c, h => by
    rw [Die.leaves] at h
    rw [Die.roll_chain, Die.bounds_chain]
    exact Chain.roll_gives_bounds (Chain.links_give_bounds ht c h)
  | .custom k, h => by
    rw [Die.roll, Die.bounds]
    exact h k (by rw [Die.leaves]; exact List.mem_singleton_self _)

@[inherit_doc Die.roll_gives_bounds]
theorem Pool.parts_give_bounds {t : Table σ ℚ} {b : CustomDie → Bounds ℚ}
    (ht : t.AnswersInRange) :
    ∀ p : Pool ℚ, (∀ k, .custom k ∈ p.leaves → (t.rollCustom k).Gives (b k).Contains) →
      (∀ count ∈ p.count?, (count.roll t).Gives (count.bounds b).Contains) ∧
        (p.value.roll t).Gives (p.valueBounds b).Contains
  | .single value, h => by
    rw [Pool.leaves] at h
    rw [Pool.valueBounds]
    exact ⟨by rintro _ ⟨⟩, Die.roll_gives_bounds ht value h⟩
  | .counted count value, h => by
    simp only [Pool.leaves, List.mem_append] at h
    rw [Pool.valueBounds]
    refine ⟨fun c hc => ?_, Die.roll_gives_bounds ht value fun k hk => h k (.inr hk)⟩
    obtain rfl : count = c := Option.some.inj hc
    exact Die.roll_gives_bounds ht count fun k hk => h k (.inl hk)

@[inherit_doc Die.roll_gives_bounds]
theorem Chain.links_give_bounds {t : Table σ ℚ} {b : CustomDie → Bounds ℚ}
    (ht : t.AnswersInRange) :
    ∀ c : Chain ℚ, (∀ k, .custom k ∈ c.leaves → (t.rollCustom k).Gives (b k).Contains) →
      ∀ l ∈ c.links, (l.pool.rollCounted t).Gives fun r =>
        (l.pool.bounds b).Contains r.1 ∧ (l.pool.counts b).Contains r.2
  | .head op p, h, l, hl => by
    rw [Chain.leaves] at h
    rw [Chain.links_head, List.mem_singleton] at hl
    subst hl
    obtain ⟨hc, hv⟩ := Pool.parts_give_bounds ht p h
    exact Pool.rollCounted_gives hc hv
  | .append front op p, h, l, hl => by
    simp only [Chain.leaves, List.mem_append] at h
    rw [Chain.links_append, List.mem_append, List.mem_singleton] at hl
    rcases hl with hl | rfl
    · exact Chain.links_give_bounds ht front (fun k hk => h k (.inl hk)) l hl
    · obtain ⟨hc, hv⟩ := Pool.parts_give_bounds ht p fun k hk => h k (.inr hk)
      exact Pool.rollCounted_gives hc hv

end

/-- The separate rolls of a pool each lie between the bounds of its die, and there are
as many of them as its count allows. -/
theorem Pool.rollSeparately_gives_bounds {t : Table σ ℚ} {b : CustomDie → Bounds ℚ}
    (ht : t.AnswersInRange) (p : Pool ℚ)
    (h : ∀ k, .custom k ∈ p.leaves → (t.rollCustom k).Gives (b k).Contains) :
    (p.rollSeparately t).Gives fun rolls =>
      (∀ x ∈ rolls.list, (p.valueBounds b).Contains x) ∧
        (p.counts b).Contains rolls.list.length := by
  obtain ⟨hc, hv⟩ := Pool.parts_give_bounds ht p h
  refine (Pool.rollCount_gives hc).bind fun n hn => (hv.collect n).bind ?_
  rintro rolls ⟨rfl, hrolls⟩
  refine (RollM.gives_note _).bind fun _ _ => ?_
  cases rolls with
  | nil => exact RollM.gives_fail _ _
  | cons x xs => exact RollM.gives_pure ⟨hrolls, hn⟩

/-- **Bounds enclose every roll.**  At a table that answers in range, a die whose custom
dice are steady only rolls values between its bounds, in whatever state it starts and
whenever the bounds are asked for.  And whenever a pool inside it is rolled separately,
each of the rolls lies between the bounds of the pool's die, and their number between the
bounds of its count. -/
theorem Die.roll_mem_bounds {t : Table σ ℚ} (ht : t.AnswersInRange) {d : Die ℚ}
    (hd : ∀ k, .custom k ∈ d.leaves → t.Steady k) (s₀ s : σ) :
    (∀ x, (d.roll t s).outcome = .ok x → (d.bounds (t.customBounds s₀)).Contains x) ∧
      ∀ p ∈ d.pools, ∀ rolls, (p.rollSeparately t s).outcome = .ok rolls →
        (∀ x ∈ rolls.list, (p.valueBounds (t.customBounds s₀)).Contains x) ∧
          (p.counts (t.customBounds s₀)).Contains rolls.list.length := by
  have hk : ∀ k, .custom k ∈ d.leaves →
      (t.rollCustom k).Gives (t.customBounds s₀ k).Contains :=
    fun k h => (hd k h).rollCustom_gives s₀
  constructor
  · exact Die.roll_gives_bounds ht d hk s
  · intro p hp
    exact Pool.rollSeparately_gives_bounds ht p
      (fun k h => hk k (Die.leaves_subset_of_mem_pools d hp h)) s

/-- A table at which every custom die shows a half, within the bounds `-1` and `2`. -/
def Table.halves : Table Source ℚ where
  nextInt := Source.nextInt
  customBounds _ _ := ⟨-1, 2⟩
  customRoll _ := pure (1 / 2)

/-- The hypotheses of `Die.roll_mem_bounds` are satisfiable, and its bounds are not empty:
a six-sided die divided by one or two halves. -/
theorem Die.roll_mem_bounds_halves :
    let divisor : Pool ℚ := .counted (.uniform (.d 2 (by decide))) (.custom ⟨0, "half"⟩)
    let d : Die ℚ := .chain ((Chain.ofDie (.uniform (.d 6 (by decide)))).append .divide divisor)
    Table.halves.AnswersInRange ∧ (∀ k, .custom k ∈ d.leaves → Table.halves.Steady k) ∧
      (d.roll Table.halves (.steps 2 5)).outcome.toOption = some 4 ∧
      (d.bounds (Table.halves.customBounds (.steps 2 5))).Contains 4 := by
  intro divisor d
  have ht : Table.halves.AnswersInRange := fun _ _ s _ h _ => Source.nextInt_mem h s
  have hd : ∀ k, .custom k ∈ d.leaves → Table.halves.Steady k := fun k _ =>
    ⟨fun _ _ => rfl, fun s x hx => by
      obtain rfl : 1 / 2 = x := Except.ok.inj hx
      norm_num [Table.halves, Bounds.Contains]⟩
  have hroll : (d.roll Table.halves (.steps 2 5)).outcome.toOption = some 4 := by
    decide +kernel
  exact ⟨ht, hd, hroll,
    (Die.roll_mem_bounds ht hd (.steps 2 5) (.steps 2 5)).1 4 (toOption_eq_some_iff.1 hroll)⟩

end DiceFormula
