/-
# Flat chains

A formula has no grouping, so what is nested in a die prints like the links of one chain, its flat
chain:

| die | its flat chain |
| --- | --- |
| a fixed value, an interval | that die |
| a pool that is rolled once | that of its die |
| a pool with a count | those of the count and of the die, glued |
| a chain | those of its front and of its last pool, joined by the operation |

Glued, the last die of the one chain counts the first die of the other.

The die is legible if its formula is that of its flat chain and tells its pools apart: a count that
prints stands in front of an interval, and an operand in parentheses is a single pool.  Then the
formula parses to the flat chain (`Chain.Legible.parse_flat`).  Whether that chain has the bounds of
the die is another question.  It has if everything inside may be regrouped
(`Chain.Legible.range_flat`).
-/

import DiceFormula.Proofs.Expression.Normalisation
import DiceFormula.Proofs.Expression.RoundTrip
import DiceFormula.Proofs.Roll.Nesting

namespace DiceFormula

/-! ### Flat chains -/

namespace Chain

/-- A chain with another last pool. -/
def mapLast (g : Pool ℚ → Pool ℚ) : Chain ℚ → Chain ℚ
  | head op p => head op (g p)
  | append front op p => front.append op (g p)

/-- A chain, and the links of another behind an operation. -/
def join (c : Chain ℚ) (op : Operation) (d : Chain ℚ) : Chain ℚ :=
  (c.append op d.first.pool).extend d.links.tail

/-- A chain whose last die counts the first die of another, and the other links of that. -/
def glue (c d : Chain ℚ) : Chain ℚ :=
  (c.mapLast fun p => .counted p.value d.first.pool.value).extend d.links.tail

end Chain

/-- A count of one, which is not printed. -/
def Die.isOne : Die ℚ → Bool
  | .fixed n => Scalar.trunc n == (1 : ℚ)
  | _ => false

/-- What stands for a count in a formula: a fixed count is cut to the number of dice. -/
def Die.tally : Die ℚ → Chain ℚ → Chain ℚ
  | .fixed n, _ => .ofDie (.fixed (Scalar.trunc n))
  | _, flat => flat

mutual

/-- The flat chain of a die. -/
def Die.flat : Die ℚ → Chain ℚ
  | .fixed x => .ofDie (.fixed x)
  | .uniform u => .ofDie (.uniform u)
  | .pool p => p.flat
  | .link c | .chain c => c.flat
  | .custom k => .ofDie (.custom k)

@[inherit_doc Die.flat]
def Pool.flat : Pool ℚ → Chain ℚ
  | .single value => value.flat
  | .counted count value =>
    if count.isOne then value.flat else (count.tally count.flat).glue value.flat

@[inherit_doc Die.flat]
def Chain.flat : Chain ℚ → Chain ℚ
  | .head _ p => p.flat
  | .append front op p => front.flat.join op p.flat

end

/-! ### Legible dice -/

/-- A pool that is read as a count: an interval above zero, or a whole number of at least two. -/
def Pool.IsTally : Pool ℚ → Prop
  | .single (.fixed n) => 2 ≤ n ∧ Scalar.trunc n = n
  | .single (.uniform u) => 1 ≤ u.min
  | _ => False

/-- A pool of one interval. -/
def Pool.IsInterval : Pool ℚ → Prop
  | .single (.uniform _) => True
  | _ => False

/-- A chain at the end of which an interval can be counted, and a chain that begins with one. -/
structure Chain.Meet (c d : Chain ℚ) : Prop where
  outside : c.last.operation.isEach = false
  tally : c.last.pool.IsTally
  interval : d.first.pool.IsInterval

mutual

/-- The formula of a die tells its flat chain: a count that prints meets an interval, and what
stands in parentheses is a single pool. -/
def Die.Legible : Die ℚ → Prop
  | .fixed _ | .uniform _ => True
  | .pool p => p.Legible
  | .link c | .chain c => c.Legible
  | .custom _ => False

@[inherit_doc Die.Legible]
def Pool.Legible : Pool ℚ → Prop
  | .single value => value.Legible
  | .counted count value => count.Legible ∧ value.Legible ∧
    (count.isOne = true ∨ (count.tally count.flat).Meet value.flat)

@[inherit_doc Die.Legible]
def Chain.Legible : Chain ℚ → Prop
  | .head op p => op = .plus ∧ p.Legible
  | .append front op p => front.Legible ∧ p.Legible ∧
    (op.isEach = true → p.flat.links.tail = [])

end

mutual

/-- Everything inside a die may be regrouped as in its flat chain. -/
def Die.Regroups : Die ℚ → Prop
  | .fixed _ | .uniform _ | .custom _ => True
  | .pool p => p.Regroups
  | .link c | .chain c => c.Regroups

/-- A count may be left to the first die of a product, if it is a single die itself. -/
def Pool.Regroups : Pool ℚ → Prop
  | .single value => value.Regroups
  | .counted count value => count.Regroups ∧ value.Regroups ∧
    (count.isOne = true ∨ count.flat.links.tail = [] ∧
      ∀ l ∈ value.flat.links.tail, Operation.multiply.regroups l.operation = true)

/-- The links of an operand may be left behind its operation, and an each operation finds as many
rolls in front as before. -/
def Chain.Regroups : Chain ℚ → Prop
  | .head _ p => p.Regroups
  | .append front op p => front.Regroups ∧ p.Regroups ∧
    (∀ l ∈ p.flat.links.tail, op.regroups l.operation = true) ∧
    (op.isEach = true →
      front.flat.last.pool.counts noCustom = front.last.pool.counts noCustom)

end

namespace Chain

/-! ### Links -/

theorem first_mem_links : ∀ c : Chain ℚ, c.first ∈ c.links
  | head op p => List.mem_singleton_self _
  | append front op p => by
    rw [links_append]
    exact List.mem_append_left _ (first_mem_links front)

/-- A chain that begins with a plus is its first pool and the other links. -/
theorem eq_extend_tail {c : Chain ℚ} (h : c.first.operation = .plus) :
    c = (ofPool c.first.pool).extend c.links.tail := by
  have hchain := chainOf?_links h
  cases hlinks : c.links with
  | nil => exact absurd hlinks c.links_ne_nil
  | cons l ls =>
    rw [hlinks, Registry.chainOf?, Option.some.injEq] at hchain
    have hfirst : c.first.pool = l.pool := by
      rw [← hchain, first_extend]
      rfl
    rw [hfirst, List.tail_cons, hchain]

theorem first_mapLast (g : Pool ℚ → Pool ℚ) (c : Chain ℚ) :
    (c.mapLast g).first.operation = c.first.operation := by
  cases c <;> rfl

section

variable {P : Pool ℚ → Prop} {c d : Chain ℚ}

theorem forall_mapLast {g : Pool ℚ → Pool ℚ} (hc : ∀ l ∈ c.links.dropLast, P l.pool)
    (hg : P (g c.last.pool)) : ∀ l ∈ (c.mapLast g).links, P l.pool := by
  cases c with
  | head op p => exact List.forall_mem_singleton.2 hg
  | append front op p =>
    rw [links_append, List.dropLast_concat] at hc
    rw [mapLast, links_append, List.forall_mem_append]
    exact ⟨hc, List.forall_mem_singleton.2 hg⟩

/-- The pools of joined chains are those of both. -/
theorem forall_join {op : Operation} (hc : ∀ l ∈ c.links, P l.pool) (hd : ∀ l ∈ d.links, P l.pool) :
    ∀ l ∈ (c.join op d).links, P l.pool := by
  have hfirst : P d.first.pool := hd _ d.first_mem_links
  rw [join, links_extend, links_append, List.forall_mem_append, List.forall_mem_append]
  exact ⟨⟨hc, List.forall_mem_singleton.2 hfirst⟩,
    fun l hl => hd l (List.mem_of_mem_tail hl)⟩

/-- The pools of glued chains are those of both, apart from the one in the seam. -/
theorem forall_glue (hc : ∀ l ∈ c.links.dropLast, P l.pool) (hd : ∀ l ∈ d.links, P l.pool)
    (hseam : P (.counted c.last.pool.value d.first.pool.value)) :
    ∀ l ∈ (c.glue d).links, P l.pool := by
  rw [glue, links_extend, List.forall_mem_append]
  exact ⟨forall_mapLast hc hseam, fun l hl => hd l (List.mem_of_mem_tail hl)⟩

end

end Chain

mutual

theorem Die.first_flat : ∀ d : Die ℚ, d.flat.first.operation = .plus
  | .fixed _ | .uniform _ | .custom _ => by
    rw [Die.flat]
    rfl
  | .pool p => by
    rw [Die.flat]
    exact Pool.first_flat p
  | .link c | .chain c => by
    rw [Die.flat]
    exact Chain.first_flat c

theorem Pool.first_flat : ∀ p : Pool ℚ, p.flat.first.operation = .plus
  | .single value => by
    rw [Pool.flat]
    exact Die.first_flat value
  | .counted count value => by
    rw [Pool.flat]
    split_ifs
    · exact Die.first_flat value
    · rw [Chain.glue, Chain.first_extend, Chain.first_mapLast]
      have hcount := Die.first_flat count
      cases count with
      | fixed n => rfl
      | _ => exact hcount

theorem Chain.first_flat : ∀ c : Chain ℚ, c.flat.first.operation = .plus
  | .head _ p => by
    rw [Chain.flat]
    exact Pool.first_flat p
  | .append front op p => by
    rw [Chain.flat, Chain.join, Chain.first_extend]
    exact Chain.first_flat front

end

/-! ### Pools of flat chains -/

/-- What is known of a tally. -/
theorem Pool.IsTally.cases {p : Pool ℚ} (h : p.IsTally) :
    (∃ n : ℕ, 2 ≤ n ∧ p = .single (.fixed n)) ∨
      ∃ u : Uniform, 1 ≤ u.min ∧ p = .single (.uniform u) := by
  match p, h with
  | .single (.fixed n), ⟨htwo, hwhole⟩ =>
    obtain ⟨z, hz⟩ := mem_wholeNumbers.1 (Scalar.trunc_mem_wholeNumbers n)
    rw [hwhole] at hz
    obtain rfl := hz
    have hle : 2 ≤ z := by exact_mod_cast htwo
    obtain ⟨k, rfl⟩ := Int.eq_ofNat_of_zero_le (a := z) (by omega)
    exact .inl ⟨k, by omega, rfl⟩
  | .single (.uniform u), hmin => exact .inr ⟨u, hmin, rfl⟩

theorem Pool.IsInterval.exists_eq {p : Pool ℚ} (h : p.IsInterval) :
    ∃ u, p = .single (.uniform u) := by
  match p, h with
  | .single (.uniform u), _ => exact ⟨u, rfl⟩

section

variable {P : Pool ℚ → Prop}

mutual

/-- The pools of a flat chain are fixed values of the die, intervals, and counted intervals. -/
theorem Die.Legible.forall_flat (huniform : ∀ u, P (.single (.uniform u)))
    (hcounted : ∀ p : Pool ℚ, ∀ u, p.IsTally → P (.counted p.value (.uniform u))) :
    ∀ {d : Die ℚ}, d.Legible → (∀ x, .fixed x ∈ d.leaves → P (.single (.fixed x))) →
      ∀ l ∈ d.flat.links, P l.pool
  | .fixed x, _, hx => by
    rw [Die.flat]
    exact List.forall_mem_singleton.2 (hx x (by rw [Die.leaves]; exact List.mem_singleton_self _))
  | .uniform u, _, _ => by
    rw [Die.flat]
    exact List.forall_mem_singleton.2 (huniform u)
  | .pool p, h, hx => by
    rw [Die.Legible] at h
    rw [Die.leaves] at hx
    rw [Die.flat]
    exact Pool.Legible.forall_flat huniform hcounted h hx
  | .link c, h, hx | .chain c, h, hx => by
    rw [Die.Legible] at h
    rw [Die.leaves] at hx
    rw [Die.flat]
    exact Chain.Legible.forall_flat huniform hcounted h hx

@[inherit_doc Die.Legible.forall_flat]
theorem Pool.Legible.forall_flat (huniform : ∀ u, P (.single (.uniform u)))
    (hcounted : ∀ p : Pool ℚ, ∀ u, p.IsTally → P (.counted p.value (.uniform u))) :
    ∀ {p : Pool ℚ}, p.Legible → (∀ x, .fixed x ∈ p.leaves → P (.single (.fixed x))) →
      ∀ l ∈ p.flat.links, P l.pool
  | .single value, h, hx => by
    rw [Pool.Legible] at h
    rw [Pool.leaves] at hx
    rw [Pool.flat]
    exact Die.Legible.forall_flat huniform hcounted h hx
  | .counted count value, h, hx => by
    rw [Pool.Legible] at h
    simp only [Pool.leaves, List.mem_append] at hx
    obtain ⟨hcount, hvalue, hmeet⟩ := h
    have hcounts := Die.Legible.forall_flat huniform hcounted hcount fun x hm => hx x (.inl hm)
    have hvalues := Die.Legible.forall_flat huniform hcounted hvalue fun x hm => hx x (.inr hm)
    rw [Pool.flat]
    split_ifs with hone
    · exact hvalues
    · obtain ⟨houtside, htally, hinterval⟩ := hmeet.resolve_left hone
      obtain ⟨u, hu⟩ := hinterval.exists_eq
      refine Chain.forall_glue ?_ hvalues ?_
      · intro l hl
        cases count with
        | fixed n => exact absurd hl List.not_mem_nil
        | _ => exact hcounts l (List.mem_of_mem_dropLast hl)
      · rw [hu]
        exact hcounted _ u htally

@[inherit_doc Die.Legible.forall_flat]
theorem Chain.Legible.forall_flat (huniform : ∀ u, P (.single (.uniform u)))
    (hcounted : ∀ p : Pool ℚ, ∀ u, p.IsTally → P (.counted p.value (.uniform u))) :
    ∀ {c : Chain ℚ}, c.Legible → (∀ x, .fixed x ∈ c.leaves → P (.single (.fixed x))) →
      ∀ l ∈ c.flat.links, P l.pool
  | .head op p, h, hx => by
    rw [Chain.Legible] at h
    rw [Chain.leaves] at hx
    rw [Chain.flat]
    exact Pool.Legible.forall_flat huniform hcounted h.2 hx
  | .append front op p, h, hx => by
    rw [Chain.Legible] at h
    simp only [Chain.leaves, List.mem_append] at hx
    rw [Chain.flat]
    exact Chain.forall_join
      (Chain.Legible.forall_flat huniform hcounted h.1 fun x hm => hx x (.inl hm))
      (Pool.Legible.forall_flat huniform hcounted h.2.1 fun x hm => hx x (.inr hm))

end

end

/-! ### Formulas -/

/-- A tally has the same formula as a die and as a count. -/
theorem Pool.IsTally.write_counted {p : Pool ℚ} (h : p.IsTally) (value : Die ℚ)
    (rest : List Char) : (Pool.counted p.value value).write rest = p.write (value.write rest) := by
  obtain ⟨n, hn, rfl⟩ | ⟨w, -, rfl⟩ := h.cases
  · have htrunc : (Scalar.trunc (n : ℚ) : ℚ) = n := Scalar.trunc_intCast n
    have hone : ¬ (n : ℚ) ≤ Scalar.ofInt 1 := by
      rw [Scalar.ofInt_rat, Int.cast_one, not_le, Nat.one_lt_cast]
      omega
    have htext : Scalar.text (n : ℚ) = Scalar.shortText (n : ℚ) :=
      (Scalar.text_intCast n).trans (Scalar.shortText_natCast (by omega) false).symm
    have hcounted : (Pool.counted (.fixed (n : ℚ)) value).write rest =
        Scalar.text (n : ℚ) ++ value.write rest := by
      rw [Pool.write, htrunc, if_neg hone]
    rw [Pool.value, hcounted, htext, Pool.write, Die.write]
  · rw [Pool.value, Pool.write, Pool.write]
    rintro _ ⟨⟩

theorem Die.exists_of_isOne {d : Die ℚ} (h : d.isOne = true) :
    ∃ n, d = .fixed n ∧ Scalar.trunc n = (1 : ℚ) := by
  cases d with
  | fixed n => exact ⟨n, rfl, beq_iff_eq.1 h⟩
  | _ => cases h

namespace Chain

variable {c d : Chain ℚ}

/-- A chain that begins with a plus prints its first pool, and then the other links. -/
theorem write_eq_first (h : d.first.operation = .plus) (rest : List Char) :
    d.write rest = d.first.pool.write (d.links.tail.foldr Link.write rest) := by
  conv_lhs => rw [eq_extend_tail h, write_extend, ofPool, write]

/-- Joined chains print side by side, with the operator between them. -/
theorem write_join {op : Operation} (h : d.first.operation = .plus)
    (hop : op.isEach = true → d.links.tail = []) (rest : List Char) :
    (c.join op d).write rest = c.write
      (if op.isEach then '(' :: op.symbol :: d.write (')' :: rest) else op.symbol :: d.write rest) := by
  rw [join, write_extend, write]
  split_ifs with heach
  · rw [write_eq_first h, hop heach]
    rfl
  · rw [write_eq_first h]

/-- Glued chains print side by side. -/
theorem write_glue (h : c.Meet d) (hd : d.first.operation = .plus) (rest : List Char) :
    (c.glue d).write rest = c.write (d.write rest) := by
  obtain ⟨houtside, htally, hinterval⟩ := h
  obtain ⟨u, hu⟩ := hinterval.exists_eq
  rw [glue, write_extend, write_eq_first hd, hu]
  cases c with
  | head op p => exact htally.write_counted (.uniform u) _
  | append front op p =>
    have hplain : ¬ op.isEach = true := by
      rw [show op.isEach = false from houtside]
      exact Bool.false_ne_true
    rw [mapLast, write, write, if_neg hplain, if_neg hplain]
    exact congrArg (fun cs => front.write (op.symbol :: cs)) (htally.write_counted (.uniform u) _)

end Chain

mutual

/-- **A legible die has the formula of its flat chain.** -/
theorem Die.Legible.write_flat :
    ∀ {d : Die ℚ}, d.Legible → ∀ rest, d.flat.write rest = d.write rest
  | .fixed _, _, rest | .uniform _, _, rest => by
    rw [Die.flat]
    rfl
  | .pool p, h, rest => by
    rw [Die.Legible] at h
    rw [Die.flat, Die.write]
    exact Pool.Legible.write_flat h rest
  | .link c, h, rest | .chain c, h, rest => by
    rw [Die.Legible] at h
    rw [Die.flat, Die.write]
    exact Chain.Legible.write_flat h rest

@[inherit_doc Die.Legible.write_flat]
theorem Pool.Legible.write_flat :
    ∀ {p : Pool ℚ}, p.Legible → ∀ rest, p.flat.write rest = p.write rest
  | .single value, h, rest => by
    rw [Pool.Legible] at h
    rw [Pool.flat, Pool.write]
    exact Die.Legible.write_flat h rest
  | .counted count value, h, rest => by
    rw [Pool.Legible] at h
    obtain ⟨hcount, hvalue, hmeet⟩ := h
    have hwrite := Die.Legible.write_flat hvalue rest
    have hcounts := Die.Legible.write_flat hcount (value.write rest)
    rw [Pool.flat]
    split_ifs with hone
    · obtain ⟨n, rfl, hn⟩ := Die.exists_of_isOne hone
      have hle : Scalar.trunc n ≤ (Scalar.ofInt 1 : ℚ) := by
        rw [hn, Scalar.ofInt_rat, Int.cast_one]
      rw [hwrite, Pool.write, if_pos hle]
    · have hmeet := hmeet.resolve_left hone
      rw [Chain.write_glue hmeet value.first_flat, hwrite]
      cases count with
      | fixed n =>
        have hcut : (Pool.counted (.fixed n) value).write rest =
            (Pool.counted (.fixed (Scalar.trunc n)) value).write rest := by
          rw [Pool.write, Pool.write, Scalar.trunc_trunc]
        rw [hcut]
        exact (hmeet.tally.write_counted value rest).symm
      | _ =>
        rw [Pool.write]
        · exact hcounts
        · rintro _ ⟨⟩

@[inherit_doc Die.Legible.write_flat]
theorem Chain.Legible.write_flat :
    ∀ {c : Chain ℚ}, c.Legible → ∀ rest, c.flat.write rest = c.write rest
  | .head op p, h, rest => by
    rw [Chain.Legible] at h
    rw [Chain.flat, Chain.write]
    exact Pool.Legible.write_flat h.2 rest
  | .append front op p, h, rest => by
    rw [Chain.Legible] at h
    obtain ⟨hfront, hpool, hop⟩ := h
    rw [Chain.flat, Chain.write_join p.first_flat hop, Chain.write,
      Chain.Legible.write_flat hfront, Pool.Legible.write_flat hpool,
      Pool.Legible.write_flat hpool]

end

/-! ### Parsing -/

/-- An interval that a tally counts is a plain pool in normal form. -/
theorem Pool.IsTally.isPlain {p : Pool ℚ} (h : p.IsTally) (u : Uniform) :
    (Pool.counted p.value (.uniform u)).IsPlain ∧
      (Pool.counted p.value (.uniform u)).normal = .counted p.value (.uniform u) := by
  have hone : (Scalar.ofInt 1 : ℚ) = 1 := by rw [Scalar.ofInt_rat, Int.cast_one]
  obtain ⟨n, hn, rfl⟩ | ⟨w, hmin, rfl⟩ := h.cases
  · have htrunc : (Scalar.trunc (n : ℚ) : ℚ) = n := Scalar.trunc_intCast n
    have hlt : (1 : ℚ) < n := Nat.one_lt_cast.2 (by omega)
    rw [Pool.value]
    refine ⟨.counted (.fixed _) (if_neg ?_), ?_⟩
    · rw [Die.bounds, Bounds.single, htrunc, hone]
      exact hlt.not_gt
    · rw [Pool.normal, htrunc, hone, if_neg hlt.not_ge]
      rfl
  · rw [Pool.value]
    refine ⟨.counted (.uniform _) (if_neg ?_), rfl⟩
    rw [Die.bounds, Scalar.ofInt_rat, Scalar.trunc_intCast, hone, not_lt]
    exact_mod_cast hmin

namespace Chain

theorem isPlain_of_links : ∀ {c : Chain ℚ}, c.first.operation = .plus →
    (∀ l ∈ c.links, l.pool.IsPlain) → c.IsPlain
  | head op p, hfirst, h => by
    obtain rfl : op = .plus := hfirst
    exact .head (h _ (List.mem_singleton_self _))
  | append front op p, hfirst, h => by
    rw [links_append, List.forall_mem_append] at h
    exact .append (isPlain_of_links hfirst h.1) (h.2 _ (List.mem_singleton_self _))

theorem normal_eq_of_links : ∀ {c : Chain ℚ}, (∀ l ∈ c.links, l.pool.normal = l.pool) →
    c.normal = c
  | head op p, h => by rw [normal, h _ (List.mem_singleton_self _)]
  | append front op p, h => by
    rw [links_append, List.forall_mem_append] at h
    rw [normal, normal_eq_of_links h.1, h.2 _ (List.mem_singleton_self _)]

/-- **The formula of a legible chain parses to its flat chain,** if its fixed values are tenths. -/
theorem Legible.parse_flat {c : Chain ℚ} (h : c.Legible)
    (ht : ∀ x, .fixed x ∈ c.leaves → Scalar.IsTenths x) : Chain.parse c.text = .ok c.flat := by
  have hpools : ∀ l ∈ c.flat.links, l.pool.IsPlain ∧ l.pool.normal = l.pool := by
    refine h.forall_flat (P := fun p => p.IsPlain ∧ p.normal = p) (fun u => ⟨.uniform u, rfl⟩)
      (fun p u hp => hp.isPlain u) fun x hx => ⟨.fixed x, ?_⟩
    rw [Pool.normal, Die.tenths, (ht x hx).toTenths_eq]
  have hplain : c.flat.IsPlain := isPlain_of_links c.first_flat fun l hl => (hpools l hl).1
  have hnormal : c.flat.normal = c.flat := normal_eq_of_links fun l hl => (hpools l hl).2
  obtain ⟨cs, hcs, hwrite⟩ := hplain.exists_spells
  rw [hnormal] at hcs
  rw [text, ← h.write_flat, hwrite, List.append_nil]
  exact hcs.parse_eq

end Chain

/-! ### Bounds -/

theorem Pool.IsTally.counts_nonneg {p : Pool ℚ} (h : p.IsTally) :
    ∀ k ∈ (p.value.bounds noCustom).trunc.ends, 0 ≤ k := by
  rw [Bounds.forall_mem_ends]
  obtain ⟨n, -, rfl⟩ | ⟨w, hmin, rfl⟩ := h.cases
  · have htrunc : (Scalar.trunc (n : ℚ) : ℚ) = n := Scalar.trunc_intCast n
    rw [Pool.value, Die.bounds, Bounds.trunc, Bounds.single, htrunc]
    exact ⟨Nat.cast_nonneg n, Nat.cast_nonneg n⟩
  · have hmax := w.min_le_max
    rw [Pool.value, Die.bounds, Bounds.trunc, Scalar.ofInt_rat, Scalar.ofInt_rat,
      Scalar.trunc_intCast, Scalar.trunc_intCast]
    exact ⟨Int.cast_nonneg (by omega), Int.cast_nonneg (by omega)⟩

theorem Uniform.low_le_high (u : Uniform) :
    ((Die.uniform u).bounds (noCustom (α := ℚ))).low ≤ ((Die.uniform u).bounds noCustom).high := by
  rw [Die.bounds]
  exact Int.cast_le.2 u.min_le_max

/-- The pools of a flat chain have bounds in order. -/
theorem Pool.Legible.low_le_high {p : Pool ℚ} (h : p.Legible) :
    ∀ l ∈ p.flat.links, (l.pool.bounds noCustom).low ≤ (l.pool.bounds noCustom).high := by
  have huniform (u : Uniform) : ((Pool.single (.uniform u)).bounds (noCustom (α := ℚ))).low ≤
      ((Pool.single (.uniform u)).bounds noCustom).high := by
    rw [Pool.bounds_single]
    exact u.low_le_high
  refine h.forall_flat (P := fun p => (p.bounds noCustom).low ≤ (p.bounds noCustom).high) huniform
    (fun q u hq => ?_) fun x _ => ?_
  · rw [Pool.bounds, Pool.counts, Pool.valueBounds]
    exact (Bounds.spans_times hq.counts_nonneg u.low_le_high).low_le_high
  · rw [Pool.bounds_single, Die.bounds]
    exact le_rfl

namespace Chain

variable {c d : Chain ℚ}

theorem isWhole_ofPool (p : Pool ℚ) : (ofPool p).isWhole = p.isWhole := by
  rw [ofPool, isWhole]
  exact Bool.true_and _

/-- The chain of a die is like the die, if the bounds of that are in order. -/
theorem range_ofDie {d : Die ℚ} (h : (d.bounds noCustom).low ≤ (d.bounds noCustom).high) :
    d.bounds noCustom = (ofDie d).bounds noCustom ∧ d.isWhole = (ofDie d).isWhole := by
  have hpool := Pool.bounds_single noCustom d
  rw [ofDie, bounds_ofPool (by rwa [hpool]), hpool, isWhole_ofPool, Pool.isWhole]
  exact ⟨rfl, rfl⟩

end Chain

/-- What stands for a count that is a single die is a die, and cut to the same numbers. -/
theorem Die.exists_tally_eq {count : Die ℚ}
    (hcount : count.bounds noCustom = count.flat.bounds noCustom)
    (htally : (count.tally count.flat).last.pool.IsTally) (hsingle : count.flat.links.tail = []) :
    ∃ m, count.tally count.flat = .ofDie m ∧ (Pool.single m).IsTally ∧
      (m.bounds noCustom).trunc = (count.bounds noCustom).trunc := by
  have hflat (h : count.tally count.flat = count.flat) :
      ∃ m, count.tally count.flat = .ofDie m ∧ (Pool.single m).IsTally ∧
        (m.bounds noCustom).trunc = (count.bounds noCustom).trunc := by
    have hfirst := Chain.eq_extend_tail count.first_flat
    rw [hsingle] at hfirst
    rw [h, hfirst] at htally
    have htally : count.flat.first.pool.IsTally := htally
    rw [h, hcount, hfirst]
    obtain ⟨n, -, hn⟩ | ⟨w, -, hw⟩ := htally.cases
    · rw [hn] at htally ⊢
      refine ⟨.fixed n, rfl, htally, congrArg Bounds.trunc (Chain.range_ofDie ?_).1⟩
      rw [Die.bounds]
      exact le_rfl
    · rw [hw] at htally ⊢
      exact ⟨.uniform w, rfl, htally, congrArg Bounds.trunc (Chain.range_ofDie w.low_le_high).1⟩
  cases count with
  | fixed n =>
    refine ⟨.fixed (Scalar.trunc n), rfl, htally, ?_⟩
    rw [Die.bounds, Die.bounds, Bounds.trunc, Bounds.trunc, Bounds.single, Bounds.single,
      Scalar.trunc_trunc]
  | _ => exact hflat rfl

mutual

/-- **What may be regrouped has the bounds of its flat chain,** and rolls whole values alike. -/
theorem Die.Legible.range_flat : ∀ {d : Die ℚ}, d.Legible → d.Regroups →
    d.bounds noCustom = d.flat.bounds noCustom ∧ d.isWhole = d.flat.isWhole
  | .fixed x, _, _ => by
    rw [Die.flat]
    refine Chain.range_ofDie ?_
    rw [Die.bounds]
    exact le_rfl
  | .uniform u, _, _ => by
    rw [Die.flat]
    exact Chain.range_ofDie u.low_le_high
  | .pool p, h, hg => by
    rw [Die.Legible] at h
    rw [Die.Regroups] at hg
    rw [Die.flat, Die.bounds_pool, Die.isWhole]
    exact Pool.Legible.range_flat h hg
  | .link c, h, hg => by
    rw [Die.Legible] at h
    rw [Die.Regroups] at hg
    rw [Die.flat, Die.bounds_link, Die.isWhole]
    exact Chain.Legible.range_flat h hg
  | .chain c, h, hg => by
    rw [Die.Legible] at h
    rw [Die.Regroups] at hg
    rw [Die.flat, Die.bounds_chain, Die.isWhole]
    exact Chain.Legible.range_flat h hg

@[inherit_doc Die.Legible.range_flat]
theorem Pool.Legible.range_flat : ∀ {p : Pool ℚ}, p.Legible → p.Regroups →
    p.bounds noCustom = p.flat.bounds noCustom ∧ p.isWhole = p.flat.isWhole
  | .single value, h, hg => by
    rw [Pool.Legible] at h
    rw [Pool.Regroups] at hg
    rw [Pool.flat, Pool.bounds_single, Pool.isWhole]
    exact Die.Legible.range_flat h hg
  | .counted count value, h, hg => by
    rw [Pool.Legible] at h
    rw [Pool.Regroups] at hg
    obtain ⟨hcount, hvalue, hmeet⟩ := h
    obtain ⟨hgcount, hgvalue, hproduct⟩ := hg
    have hcounts := Die.Legible.range_flat hcount hgcount
    have hvalues := Die.Legible.range_flat hvalue hgvalue
    rw [Pool.flat, Pool.isWhole]
    split_ifs with hone
    · obtain ⟨n, rfl, hn⟩ := Die.exists_of_isOne hone
      have honce : (Pool.counted (.fixed n) value).bounds noCustom =
          (Pool.single value).bounds noCustom := by
        simp only [Pool.bounds, Pool.counts, Pool.valueBounds, Die.bounds, Bounds.single,
          Bounds.trunc, hn, Scalar.ofInt_rat, Int.cast_one]
      rw [honce, Pool.bounds_single]
      exact hvalues
    · obtain ⟨-, htally, hinterval⟩ := hmeet.resolve_left hone
      obtain ⟨hsingle, hlinks⟩ := hproduct.resolve_left hone
      obtain ⟨m, hm, hmtally, hmcounts⟩ := Die.exists_tally_eq hcounts.1 htally hsingle
      obtain ⟨u, hu⟩ := hinterval.exists_eq
      obtain ⟨hbounds, hwhole⟩ := hvalues
      have hflat : value.flat = (Chain.ofDie (.uniform u)).extend value.flat.links.tail := by
        conv_lhs => rw [Chain.eq_extend_tail value.first_flat, hu]
        rfl
      have hglue : (count.tally count.flat).glue value.flat =
          (Chain.ofPool (.counted m (.uniform u))).extend value.flat.links.tail := by
        rw [hm, Chain.glue, hu]
        rfl
      have hcut : (Pool.counted count value).bounds noCustom =
          (Pool.counted m value).bounds noCustom := by
        rw [Pool.bounds, Pool.bounds, Pool.counts, Pool.counts, hmcounts, Pool.valueBounds,
          Pool.valueBounds]
      rw [hglue, hcut, hwhole]
      refine ⟨(Chain.bounds_counted_extend hmtally.counts_nonneg u.low_le_high hlinks ?_).symm, ?_⟩
      · rw [hbounds, ← hflat]
      · conv_lhs => rw [hflat]
        rw [Chain.isWhole_extend, Chain.isWhole_extend, Chain.isWhole_ofPool, Chain.ofDie,
          Chain.isWhole_ofPool, Pool.isWhole, Pool.isWhole]

@[inherit_doc Die.Legible.range_flat]
theorem Chain.Legible.range_flat : ∀ {c : Chain ℚ}, c.Legible → c.Regroups →
    c.bounds noCustom = c.flat.bounds noCustom ∧ c.isWhole = c.flat.isWhole
  | .head op p, h, hg => by
    rw [Chain.Legible] at h
    rw [Chain.Regroups] at hg
    obtain ⟨rfl, hpool⟩ := h
    obtain ⟨hbounds, hwhole⟩ := Pool.Legible.range_flat hpool hg
    have hordered : (p.bounds noCustom).low ≤ (p.bounds noCustom).high := by
      rw [hbounds]
      exact Chain.low_le_high noCustom _
    rw [Chain.flat, ← hbounds, ← hwhole]
    exact ⟨Chain.bounds_ofPool hordered, Chain.isWhole_ofPool p⟩
  | .append front op p, h, hg => by
    rw [Chain.Legible] at h
    rw [Chain.Regroups] at hg
    obtain ⟨hfront, hpool, -⟩ := h
    obtain ⟨hgfront, hgpool, hlinks, hcounts⟩ := hg
    obtain ⟨hbounds, hwhole⟩ := Chain.Legible.range_flat hfront hgfront
    obtain ⟨hpbounds, hpwhole⟩ := Pool.Legible.range_flat hpool hgpool
    have hfirst := hpool.low_le_high _ p.flat.first_mem_links
    rw [Chain.eq_extend_tail p.first_flat] at hpbounds hpwhole
    have hfronts : (front.extend [⟨op, p⟩]).bounds noCustom =
        (front.flat.extend [⟨op, p⟩]).bounds noCustom :=
      Chain.bounds_extend_congr hbounds fun l hl heach => by
        cases hl
        exact (hcounts heach).symm
    have hfronts : (front.append op p).bounds noCustom =
        (front.flat.append op p).bounds noCustom := hfronts
    have hjoin := Chain.bounds_append_extend (f := front.flat) hfirst hlinks hpbounds hpwhole
    rw [Chain.flat, hfronts, Chain.join, hjoin, Chain.isWhole, Chain.isWhole_extend, Chain.isWhole,
      hwhole, hpwhole, Chain.isWhole_extend, Chain.isWhole_ofPool]
    refine ⟨rfl, ?_⟩
    simp only [Bool.and_assoc, Bool.and_comm, Bool.and_left_comm]

end

end DiceFormula
