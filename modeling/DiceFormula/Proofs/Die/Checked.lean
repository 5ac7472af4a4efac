/-
# Checked dice

The dice that come out of the checked builders, with no custom dice among them.  Fixed
values passed `Die.ofFixed`, intervals are checked by their type, and each count passed
`Pool.ofCount`, so the least number of dice that its bounds allow is one.

What is asked of the ends of an interval is that its half-open range can be drawn from
(`Uniform.exists_ofInterval_iff`).  The check of a count looks at bounds only.  That it settles
what is rolled needs the bounds to enclose every roll, also those of counts that are pools and
chains themselves.
-/

import DiceFormula.Die.Build
import DiceFormula.Proofs.Die.Parts
import Mathlib.Tactic.SplitIfs

namespace DiceFormula

namespace Uniform

theorem ofInterval_eq {α : Type} (u : Uniform) :
    (ofInterval u.min u.max : Except (ArgumentError α) Uniform) = .ok u := by
  rw [ofInterval, dif_neg (Int.not_lt.2 u.min_le_max),
    dif_pos ⟨u.smallest_le_min, u.max_lt_largest⟩]

theorem ofInterval_eq_ok_iff {α : Type} {u : Uniform} {min max : Int} :
    (ofInterval min max : Except (ArgumentError α) Uniform) = .ok u ↔
      u.min = min ∧ u.max = max := by
  constructor
  · intro h
    rw [ofInterval] at h
    split_ifs at h
    cases h
    exact ⟨rfl, rfl⟩
  · rintro ⟨rfl, rfl⟩
    exact u.ofInterval_eq

theorem ofFaces_eq_ok_iff {α : Type} {u : Uniform} {n : Int} :
    (ofFaces n : Except (ArgumentError α) Uniform) = .ok u ↔ u.min = 1 ∧ u.max = n := by
  rw [ofFaces]
  split_ifs with hn
  · refine iff_of_false (by rintro ⟨⟩) ?_
    rintro ⟨hmin, rfl⟩
    have horder := u.min_le_max
    omega
  · exact ofInterval_eq_ok_iff

/-- **An interval can be built exactly if its half-open range can be drawn from:** the range is
not empty, and its ends fit into 64 bits. -/
theorem exists_ofInterval_iff {α : Type} {min max : Int} :
    (∃ u, (ofInterval min max : Except (ArgumentError α) Uniform) = .ok u) ↔
      smallestInt ≤ min ∧ min < max + 1 ∧ max + 1 ≤ largestInt := by
  rw [ofInterval]
  split_ifs with horder hfits
  · refine iff_of_false (by rintro ⟨_, ⟨⟩⟩) ?_
    omega
  · refine iff_of_true ⟨_, rfl⟩ ?_
    omega
  · refine iff_of_false (by rintro ⟨_, ⟨⟩⟩) ?_
    omega

end Uniform

variable {α : Type} [Scalar α]

mutual

/-- A die that the checked builders made, without custom dice. -/
inductive Die.Checked : Die α → Prop where
  | fixed {x : α} {d : Die α} (h : Die.ofFixed x = .ok d) : Die.Checked d
  | uniform (u : Uniform) : Die.Checked (.uniform u)
  | pool {p : Pool α} (hp : Pool.Checked p) : Die.Checked (.pool p)
  | link {c : Chain α} (hc : Chain.Checked c) : Die.Checked (.link c)
  | chain {c : Chain α} (hc : Chain.Checked c) : Die.Checked (.chain c)

@[inherit_doc Die.Checked]
inductive Pool.Checked : Pool α → Prop where
  | single {value : Die α} (hv : Die.Checked value) : Pool.Checked (.single value)
  | counted {count value : Die α} {p : Pool α} (hc : Die.Checked count) (hv : Die.Checked value)
      (h : Pool.ofCount noCustom count value = .ok p) : Pool.Checked p

@[inherit_doc Die.Checked]
inductive Chain.Checked : Chain α → Prop where
  | head (op : Operation) {p : Pool α} (hp : Pool.Checked p) : Chain.Checked (.head op p)
  | append {front : Chain α} (op : Operation) {p : Pool α} (hf : Chain.Checked front)
      (hp : Pool.Checked p) : Chain.Checked (front.append op p)

end

theorem Die.ofFixed_eq_ok {x : α} {d : Die α} (h : ofFixed x = .ok d) : d = .fixed x := by
  rw [ofFixed] at h
  split at h <;> cases h
  rfl

theorem Die.isFinite_of_ofFixed {x : α} {d : Die α} (h : ofFixed x = .ok d) :
    Scalar.isFinite x = true := by
  rw [ofFixed] at h
  split at h
  · assumption
  · cases h

/-- A count that passed the check has a lower bound whose integer part is not below one. -/
theorem Pool.ofCount_eq_ok_iff {custom : CustomDie → Bounds α} {count value : Die α} {p : Pool α} :
    ofCount custom count value = .ok p ↔
      ¬ Scalar.trunc (count.bounds custom).low < Scalar.ofInt 1 ∧ p = .counted count value := by
  rw [ofCount]
  split
  · rename_i h
    exact ⟨by rintro ⟨⟩, fun h' => absurd h h'.1⟩
  · rename_i h
    exact ⟨fun h' => ⟨h, (Except.ok.inj h').symm⟩, fun h' => congrArg Except.ok h'.2.symm⟩

mutual

/-- Checked dice hold no custom dice. -/
theorem Die.Checked.not_custom {k : CustomDie} : ∀ {d : Die α}, d.Checked → .custom k ∉ d.leaves
  | _, .fixed h => by
    rw [Die.ofFixed_eq_ok h, Die.leaves, List.mem_singleton]
    rintro ⟨⟩
  | _, .uniform u => by
    rw [Die.leaves, List.mem_singleton]
    rintro ⟨⟩
  | _, .pool hp => by
    rw [Die.leaves]
    exact Pool.Checked.not_custom hp
  | _, .link hc | _, .chain hc => by
    rw [Die.leaves]
    exact Chain.Checked.not_custom hc

@[inherit_doc Die.Checked.not_custom]
theorem Pool.Checked.not_custom {k : CustomDie} :
    ∀ {p : Pool α}, p.Checked → .custom k ∉ p.leaves
  | _, .single hv => by
    rw [Pool.leaves]
    exact Die.Checked.not_custom hv
  | _, .counted hc hv h => by
    rw [(Pool.ofCount_eq_ok_iff.1 h).2, Pool.leaves, List.mem_append, not_or]
    exact ⟨Die.Checked.not_custom hc, Die.Checked.not_custom hv⟩

@[inherit_doc Die.Checked.not_custom]
theorem Chain.Checked.not_custom {k : CustomDie} :
    ∀ {c : Chain α}, c.Checked → .custom k ∉ c.leaves
  | _, .head op hp => by
    rw [Chain.leaves]
    exact Pool.Checked.not_custom hp
  | _, .append op hf hp => by
    rw [Chain.leaves, List.mem_append, not_or]
    exact ⟨Chain.Checked.not_custom hf, Pool.Checked.not_custom hp⟩

end

mutual

/-- **Every pool inside checked dice is checked.** -/
theorem Die.Checked.of_mem_pools : ∀ {d : Die α} {p : Pool α}, d.Checked → p ∈ d.pools → p.Checked
  | _, p, .fixed h, hp => by
    rw [Die.ofFixed_eq_ok h, Die.pools] at hp
    exact absurd hp List.not_mem_nil
  | _, p, .uniform u, hp => by
    rw [Die.pools] at hp
    exact absurd hp List.not_mem_nil
  | _, p, .pool hq, hp => by
    rw [Die.pools] at hp
    exact Pool.Checked.of_mem_pools hq hp
  | _, p, .link hc, hp | _, p, .chain hc, hp => by
    rw [Die.pools] at hp
    exact Chain.Checked.of_mem_pools hc hp

@[inherit_doc Die.Checked.of_mem_pools]
theorem Pool.Checked.of_mem_pools : ∀ {q p : Pool α}, q.Checked → p ∈ q.pools → p.Checked
  | _, p, .single hv, hp => by
    rw [Pool.pools, List.mem_cons] at hp
    rcases hp with rfl | hp
    · exact .single hv
    · exact Die.Checked.of_mem_pools hv hp
  | q, p, .counted hc hv h, hp => by
    have hself : q.Checked := .counted hc hv h
    obtain rfl := (Pool.ofCount_eq_ok_iff.1 h).2
    rw [Pool.pools, List.mem_cons, List.mem_append] at hp
    rcases hp with rfl | hp | hp
    · exact hself
    · exact Die.Checked.of_mem_pools hc hp
    · exact Die.Checked.of_mem_pools hv hp

@[inherit_doc Die.Checked.of_mem_pools]
theorem Chain.Checked.of_mem_pools :
    ∀ {c : Chain α} {p : Pool α}, c.Checked → p ∈ c.pools → p.Checked
  | _, p, .head op hq, hp => by
    rw [Chain.pools] at hp
    exact Pool.Checked.of_mem_pools hq hp
  | _, p, .append op hf hq, hp => by
    rw [Chain.pools, List.mem_append] at hp
    rcases hp with hp | hp
    · exact Chain.Checked.of_mem_pools hf hp
    · exact Pool.Checked.of_mem_pools hq hp

end

/-- The count of a checked pool is checked. -/
theorem Pool.Checked.of_count? {p : Pool α} {count : Die α} (hp : p.Checked)
    (h : count ∈ p.count?) : count.Checked := by
  cases hp with
  | single hv => cases h
  | counted hc hv hok =>
    obtain rfl := (Pool.ofCount_eq_ok_iff.1 hok).2
    cases h
    exact hc

/-- **Finishing a link keeps dice checked.** -/
theorem PendingLink.die_checked {s : PendingLink α} {value : Die α} {c : Chain α}
    (hs : ∀ front ∈ s.previous, front.Checked) (ha : s.amount.Checked) (hv : value.Checked)
    (h : s.die noCustom value = .ok c) : c.Checked := by
  rw [die] at h
  cases hp : Pool.ofCount noCustom s.amount value with
  | error e => rw [hp] at h; cases h
  | ok p =>
    have hpool : p.Checked := .counted ha hv hp
    rw [hp] at h
    cases hprevious : s.previous with
    | none =>
      rw [hprevious] at h
      cases h
      exact .head .plus hpool
    | some front =>
      rw [hprevious] at h
      cases h
      exact .append s.operation (hs front hprevious) hpool

end DiceFormula
