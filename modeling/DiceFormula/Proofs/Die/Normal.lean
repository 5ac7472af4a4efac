/-
# Normal forms

What the formula of a chain tells about it is its normal form: fixed values are
rounded to tenths, fixed counts to the number of dice that they roll, and a count of
one die is left out.

A chain has the formula of its normal form (`Chain.write_normal`).  The chains that
formulas describe are made of plain pools (`Chain.IsPlain`), and if their fixed values
are tenths to begin with, then they also have the bounds of their normal form
(`Chain.IsPlain.bounds_normal`): a fixed count has the same integer part as the one that
stands for it, and a pool without a count rolls one die.
-/

import DiceFormula.Proofs.Die.Enclosure
import DiceFormula.Proofs.Number.Tenths

namespace DiceFormula

section

variable {α : Type} [Scalar α]

/-- A fixed value rounded to tenths; other dice as they are. -/
def Die.tenths : Die α → Die α
  | .fixed value => .fixed (Scalar.toTenths value)
  | d => d

/-- The normal form of a pool. -/
def Pool.normal : Pool α → Pool α
  | .single value => .single value.tenths
  | .counted (.fixed n) value =>
    if Scalar.trunc n ≤ Scalar.ofInt 1 then .single value.tenths
    else .counted (.fixed (Scalar.trunc n)) value.tenths
  | .counted count value => .counted count value.tenths

/-- The normal form of a chain. -/
def Chain.normal : Chain α → Chain α
  | .head op p => .head op p.normal
  | .append front op p => .append front.normal op p.normal

end

/-- A pool of the form that a node has: a fixed value, or an interval that is rolled once
or as often as a fixed value or an interval says. -/
inductive Pool.IsPlain : Pool ℚ → Prop where
  | fixed (x : ℚ) : IsPlain (.single (.fixed x))
  | once {n : ℚ} (x : ℚ) (hn : Scalar.trunc n = (1 : ℚ)) : IsPlain (.counted (.fixed n) (.fixed x))
  | uniform (u : Uniform) : IsPlain (.single (.uniform u))
  | counted {count : Die ℚ} {u : Uniform} (hc : count.Simple)
      (hok : Pool.ofCount noCustom count (.uniform u) = .ok (.counted count (.uniform u))) :
      IsPlain (.counted count (.uniform u))

/-- A chain of plain pools whose head is a plus. -/
inductive Chain.IsPlain : Chain ℚ → Prop where
  | head {p} (hp : p.IsPlain) : IsPlain (.head .plus p)
  | append {front op p} (hf : front.IsPlain) (hp : p.IsPlain) : IsPlain (.append front op p)

/-- A pool whose fixed values are tenths. -/
def Pool.InTenths (p : Pool ℚ) : Prop := ∀ x, p.value = .fixed x → Scalar.IsTenths x

theorem Pool.le_trunc_of_ofCount {n : ℚ} {value : Die ℚ}
    (h : Pool.ofCount noCustom (.fixed n) value = .ok (.counted (.fixed n) value)) :
    1 ≤ (Scalar.trunc n : ℚ) := by
  rw [Pool.ofCount] at h
  split_ifs at h with hlt
  exact not_lt.1 hlt

theorem Scalar.trunc_trunc (x : ℚ) : Scalar.trunc (Scalar.trunc x : ℚ) = Scalar.trunc x := by
  obtain ⟨n, hn⟩ := mem_wholeNumbers.1 (Scalar.trunc_mem_wholeNumbers x)
  rw [← hn, Scalar.trunc_intCast]

theorem Die.write_tenths (d : Die ℚ) (rest : List Char) :
    d.tenths.write rest = d.write rest := by
  cases d with
  | fixed x => rw [Die.tenths, Die.write, Die.write, Scalar.shortText_toTenths]
  | _ => rfl

theorem Die.tenths_eq {d : Die ℚ} (h : ∀ x, d = .fixed x → Scalar.IsTenths x) : d.tenths = d := by
  cases d with
  | fixed x => rw [Die.tenths, (h x rfl).toTenths_eq]
  | _ => rfl

namespace Pool

/-- A pool has the formula of its normal form. -/
theorem write_normal (p : Pool ℚ) (rest : List Char) : p.normal.write rest = p.write rest := by
  cases p with
  | single value => rw [normal, write, write, Die.write_tenths]
  | counted count value =>
    cases count with
    | fixed n =>
      rw [normal, write]
      split_ifs with h
      · rw [write, Die.write_tenths]
      · rw [write, Scalar.trunc_trunc, if_neg h, Die.write_tenths]
    | _ =>
      rw [normal, write, write, Die.write_tenths]
      all_goals rintro _ ⟨⟩

/-- A pool whose fixed values are tenths, and whose fixed count is at least one, has the
bounds of its normal form, of its rolls and of their number. -/
theorem range_normal (b : CustomDie → Bounds ℚ) {p : Pool ℚ} (hp : p.InTenths)
    (hc : ∀ n, p.count? = some (.fixed n) → 1 ≤ (Scalar.trunc n : ℚ)) (op : Operation) :
    Link.range b ⟨op, p.normal⟩ = Link.range b ⟨op, p⟩ := by
  have htenths : p.value.tenths = p.value := Die.tenths_eq hp
  cases p with
  | single value => rw [normal, show value.tenths = value from htenths]
  | counted count value =>
    have hvalue : value.tenths = value := htenths
    cases count with
    | fixed n =>
      rw [normal, hvalue]
      split_ifs with h
      · have hone : (Scalar.trunc n : ℚ) = 1 := le_antisymm h (hc n rfl)
        simp only [Link.range, Pool.bounds, Pool.counts, Pool.valueBounds, Pool.isWhole,
          Die.bounds, Bounds.single, Bounds.trunc, hone, Scalar.ofInt_rat, Int.cast_one]
      · simp only [Link.range, Pool.bounds, Pool.counts, Pool.valueBounds, Pool.isWhole,
          Die.bounds, Bounds.single, Bounds.trunc, Scalar.trunc_trunc]
    | _ =>
      rw [normal, hvalue]
      rintro _ ⟨⟩

theorem IsPlain.one_le_trunc {p : Pool ℚ} (hp : p.IsPlain) (n : ℚ)
    (hn : p.count? = some (.fixed n)) : 1 ≤ (Scalar.trunc n : ℚ) := by
  cases hp with
  | fixed x => cases hn
  | once x h =>
    cases hn
    exact h.ge
  | uniform u => cases hn
  | counted hc hok =>
    cases hn
    exact le_trunc_of_ofCount hok

end Pool

namespace Chain

theorem links_normal : ∀ c : Chain ℚ,
    c.normal.links = c.links.map fun l => ⟨l.operation, l.pool.normal⟩
  | head op p => rfl
  | append front op p => by
    rw [normal, links_append, links_normal front, links_append, List.map_append]
    rfl

theorem IsPlain.pools {c : Chain ℚ} (hc : c.IsPlain) : ∀ l ∈ c.links, l.pool.IsPlain := by
  induction hc with
  | head hp =>
    intro l hl
    rw [links_head, List.mem_singleton] at hl
    rwa [hl]
  | append hf hp ih =>
    intro l hl
    rw [links_append, List.mem_append, List.mem_singleton] at hl
    rcases hl with hl | rfl
    · exact ih l hl
    · exact hp

/-- **A chain has the formula of its normal form.** -/
theorem write_normal : ∀ (c : Chain ℚ) (rest : List Char), c.normal.write rest = c.write rest
  | head op p, rest => by rw [normal, write, write, Pool.write_normal]
  | append front op p, rest => by
    rw [normal, write, write, write_normal front, Pool.write_normal, Pool.write_normal]

/-- **A plain chain in tenths has the bounds of its normal form.** -/
theorem IsPlain.bounds_normal {c : Chain ℚ} (hc : c.IsPlain)
    (ht : ∀ l ∈ c.links, l.pool.InTenths) (b : CustomDie → Bounds ℚ) :
    c.normal.bounds b = c.bounds b := by
  have hranges : c.normal.links.map (Link.range b) = c.links.map (Link.range b) := by
    rw [links_normal, List.map_map]
    refine List.map_congr_left fun l hl => ?_
    exact Pool.range_normal b (ht l hl) (hc.pools l hl).one_le_trunc l.operation
  rw [bounds, bounds, hranges]

end Chain
end DiceFormula
