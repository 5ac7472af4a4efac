/-
# Records as they are written

A record that was written by `Die.toDatum?` has certain fields and no others, though they may
stand in another order when it is read.  What is left of it without the order is a *description*:
a die whose intervals and counts nobody has checked.

| in a description | what is known |
| --- | --- |
| a fixed value | it is finite, or else it is no number of a record |
| the ends of an interval | they are integers of 64 bits, for the same reason |
| a pool | nothing of its count |

`DieRecord.die?` is the die of a description without regard to its counts.  It is there if the
intervals are (`DieRecord.isSome_die?`), and is written as it was described
(`DieRecord.toDatum?_of_die?`).  Reading gives the same die, but only if all counts pass, those
inside of counts included (`DieRecord.Writes.readsAs`).
-/

import DiceFormula.Proofs.Die.Checked
import DiceFormula.Proofs.Record.Parts
import Mathlib.Data.List.Permutation

namespace DiceFormula

/-- The ends of an interval, in any order. -/
structure Ends where
  min : Int
  max : Int
  min_fits : smallestInt ≤ min ∧ min ≤ largestInt
  max_fits : smallestInt ≤ max ∧ max ≤ largestInt

namespace Ends

/-- They are the ends of an interval. -/
def Valid (e : Ends) : Prop := e.min ≤ e.max ∧ e.max < largestInt

instance (e : Ends) : Decidable e.Valid := inferInstanceAs (Decidable (_ ∧ _))

/-- The interval between the ends, if there is one. -/
def uniform? (e : Ends) : Option Uniform :=
  if h : e.Valid then some ⟨e.min, e.max, h.1, e.min_fits.1, h.2⟩ else none

theorem isSome_uniform? {e : Ends} : e.uniform?.isSome = true ↔ e.Valid := by
  rw [uniform?, Option.isSome_dite]

theorem ofInterval_eq_ok_iff {α : Type} {e : Ends} {u : Uniform} :
    (Uniform.ofInterval e.min e.max : Except (ArgumentError α) Uniform) = .ok u ↔
      e.uniform? = some u := by
  rw [Uniform.ofInterval, uniform?]
  -- Both ask for the order; the room below is there anyway.
  split_ifs with horder hvalid hfits hvalid hvalid
  · exact absurd hvalid.1 (Int.not_le.2 horder)
  · simp
  · simp
  · exact absurd ⟨Int.not_lt.1 horder, hfits.2⟩ hvalid
  · exact absurd ⟨e.min_fits.1, hvalid.2⟩ hfits
  · simp

theorem toDatum_of_uniform? {α : Type} {e : Ends} {u : Uniform} (h : e.uniform? = some u) :
    (u.toDatum : Datum α) = .fields [("min", .integer e.min), ("max", .integer e.max)] := by
  rw [uniform?] at h
  split_ifs at h
  cases h
  rfl

end Ends

mutual

/-- What the record of a die says. -/
inductive DieRecord (α : Type) [Scalar α] where
  | fixed (value : α) (finite : Scalar.isFinite value = true)
  | uniform (ends : Ends)
  | pool (pool : PoolRecord α)
  | link (chain : LinkRecord α)
  | chain (chain : LinkRecord α)

@[inherit_doc DieRecord]
inductive PoolRecord (α : Type) [Scalar α] where
  | single (value : DieRecord α)
  | counted (count value : DieRecord α)

/-- What the record of a link says, and those of all links before it. -/
inductive LinkRecord (α : Type) [Scalar α] where
  | head (operation : Operation) (pool : PoolRecord α)
  | append (front : LinkRecord α) (operation : Operation) (pool : PoolRecord α)

end

variable {α : Type} [Scalar α]

/-! ### Descriptions -/

mutual

/-- The record of a description, with its fields in the order in which they are written. -/
def DieRecord.datum : DieRecord α → Datum α
  | .fixed value _ => .fields [("Fixed", .fields [("value", .number value)])]
  | .uniform e => .fields [("Uniform", .fields [("min", .integer e.min), ("max", .integer e.max)])]
  | .pool p => .fields [("Pool", p.datum)]
  | .link c => .fields [("Link", c.datum)]
  | .chain c => .fields [("Chain", .fields [("last", c.datum)])]

@[inherit_doc DieRecord.datum]
def PoolRecord.datum : PoolRecord α → Datum α
  | .single value => .fields [("value", value.datum), ("count", .null)]
  | .counted count value => .fields [("value", value.datum), ("count", count.datum)]

@[inherit_doc DieRecord.datum]
def LinkRecord.datum : LinkRecord α → Datum α
  | .head op p => .fields [("operation", op.toDatum), ("pool", p.datum), ("previous", .null)]
  | .append front op p =>
    .fields [("operation", op.toDatum), ("pool", p.datum), ("previous", front.datum)]

end

mutual

/-- The record says this and nothing else, with its fields in any order. -/
def DieRecord.Writes : DieRecord α → Datum α → Prop
  | .fixed value _, d => d = .fields [("Fixed", .fields [("value", .number value)])]
  | .uniform e, d => ∃ fs, fs.Perm [("min", .integer e.min), ("max", .integer e.max)] ∧
      d = .fields [("Uniform", .fields fs)]
  | .pool p, d => ∃ r, p.Writes r ∧ d = .fields [("Pool", r)]
  | .link c, d => ∃ r, c.Writes r ∧ d = .fields [("Link", r)]
  | .chain c, d => ∃ r, c.Writes r ∧ d = .fields [("Chain", .fields [("last", r)])]

@[inherit_doc DieRecord.Writes]
def PoolRecord.Writes : PoolRecord α → Datum α → Prop
  | .single value, d => ∃ v fs, value.Writes v ∧ fs.Perm [("value", v), ("count", .null)] ∧
      d = .fields fs
  | .counted count value, d => ∃ n v fs, count.Writes n ∧ value.Writes v ∧
      fs.Perm [("value", v), ("count", n)] ∧ d = .fields fs

@[inherit_doc DieRecord.Writes]
def LinkRecord.Writes : LinkRecord α → Datum α → Prop
  | .head op p, d => ∃ r fs, p.Writes r ∧
      fs.Perm [("operation", op.toDatum), ("pool", r), ("previous", .null)] ∧ d = .fields fs
  | .append front op p, d => ∃ f r fs, front.Writes f ∧ p.Writes r ∧
      fs.Perm [("operation", op.toDatum), ("pool", r), ("previous", f)] ∧ d = .fields fs

end

mutual

/-- The ends of the intervals in a description, at any depth. -/
def DieRecord.intervals : DieRecord α → List Ends
  | .fixed _ _ => []
  | .uniform e => [e]
  | .pool p => p.intervals
  | .link c | .chain c => c.intervals

@[inherit_doc DieRecord.intervals]
def PoolRecord.intervals : PoolRecord α → List Ends
  | .single value => value.intervals
  | .counted count value => count.intervals ++ value.intervals

@[inherit_doc DieRecord.intervals]
def LinkRecord.intervals : LinkRecord α → List Ends
  | .head _ p => p.intervals
  | .append front _ p => front.intervals ++ p.intervals

end

mutual

/-- The counts of the pools in a description, at any depth and in the order in which they are
checked. -/
def DieRecord.counts : DieRecord α → List (DieRecord α)
  | .fixed _ _ | .uniform _ => []
  | .pool p => p.counts
  | .link c | .chain c => c.counts

@[inherit_doc DieRecord.counts]
def PoolRecord.counts : PoolRecord α → List (DieRecord α)
  | .single value => value.counts
  | .counted count value => value.counts ++ (count.counts ++ [count])

@[inherit_doc DieRecord.counts]
def LinkRecord.counts : LinkRecord α → List (DieRecord α)
  | .head _ p => p.counts
  | .append front _ p => p.counts ++ front.counts

end

mutual

/-- The die of a description, whatever its counts. -/
def DieRecord.die? : DieRecord α → Option (Die α)
  | .fixed value _ => some (.fixed value)
  | .uniform e => .uniform <$> e.uniform?
  | .pool p => .pool <$> p.pool?
  | .link c => .link <$> c.chain?
  | .chain c => .chain <$> c.chain?

@[inherit_doc DieRecord.die?]
def PoolRecord.pool? : PoolRecord α → Option (Pool α)
  | .single value => .single <$> value.die?
  | .counted count value => do
    let value ← value.die?
    return .counted (← count.die?) value

@[inherit_doc DieRecord.die?]
def LinkRecord.chain? : LinkRecord α → Option (Chain α)
  | .head op p => .head op <$> p.pool?
  | .append front op p => do
    let p ← p.pool?
    return .append (← front.chain?) op p

end

mutual

/-- The record in the usual order is one of them. -/
theorem DieRecord.writes_datum : ∀ t : DieRecord α, t.Writes t.datum
  | .fixed value finite => by
    rw [DieRecord.Writes, DieRecord.datum]
  | .uniform e => by
    rw [DieRecord.Writes, DieRecord.datum]
    exact ⟨_, List.Perm.refl _, rfl⟩
  | .pool p => by
    rw [DieRecord.Writes, DieRecord.datum]
    exact ⟨_, PoolRecord.writes_datum p, rfl⟩
  | .link c | .chain c => by
    rw [DieRecord.Writes, DieRecord.datum]
    exact ⟨_, LinkRecord.writes_datum c, rfl⟩

@[inherit_doc DieRecord.writes_datum]
theorem PoolRecord.writes_datum : ∀ t : PoolRecord α, t.Writes t.datum
  | .single value => by
    rw [PoolRecord.Writes, PoolRecord.datum]
    exact ⟨_, _, DieRecord.writes_datum value, List.Perm.refl _, rfl⟩
  | .counted count value => by
    rw [PoolRecord.Writes, PoolRecord.datum]
    exact ⟨_, _, _, DieRecord.writes_datum count, DieRecord.writes_datum value, List.Perm.refl _,
      rfl⟩

@[inherit_doc DieRecord.writes_datum]
theorem LinkRecord.writes_datum : ∀ t : LinkRecord α, t.Writes t.datum
  | .head op p => by
    rw [LinkRecord.Writes, LinkRecord.datum]
    exact ⟨_, _, PoolRecord.writes_datum p, List.Perm.refl _, rfl⟩
  | .append front op p => by
    rw [LinkRecord.Writes, LinkRecord.datum]
    exact ⟨_, _, _, LinkRecord.writes_datum front, PoolRecord.writes_datum p, List.Perm.refl _,
      rfl⟩

end

/-! ### The die of a description -/

mutual

/-- A description is that of a die if its intervals are. -/
theorem DieRecord.isSome_die? :
    ∀ t : DieRecord α, t.die?.isSome = true ↔ ∀ e ∈ t.intervals, e.Valid
  | .fixed value _ => by simp [DieRecord.die?, DieRecord.intervals]
  | .uniform e => by simp [DieRecord.die?, DieRecord.intervals, Ends.isSome_uniform?]
  | .pool p => by simp [DieRecord.die?, DieRecord.intervals, PoolRecord.isSome_pool? p]
  | .link c | .chain c => by simp [DieRecord.die?, DieRecord.intervals, LinkRecord.isSome_chain? c]

@[inherit_doc DieRecord.isSome_die?]
theorem PoolRecord.isSome_pool? :
    ∀ t : PoolRecord α, t.pool?.isSome = true ↔ ∀ e ∈ t.intervals, e.Valid
  | .single value => by simp [PoolRecord.pool?, PoolRecord.intervals, DieRecord.isSome_die? value]
  | .counted count value => by
    rw [PoolRecord.intervals, List.forall_mem_append, ← DieRecord.isSome_die? count,
      ← DieRecord.isSome_die? value, PoolRecord.pool?]
    cases count.die? <;> cases value.die? <;> simp

@[inherit_doc DieRecord.isSome_die?]
theorem LinkRecord.isSome_chain? :
    ∀ t : LinkRecord α, t.chain?.isSome = true ↔ ∀ e ∈ t.intervals, e.Valid
  | .head op p => by simp [LinkRecord.chain?, LinkRecord.intervals, PoolRecord.isSome_pool? p]
  | .append front op p => by
    rw [LinkRecord.intervals, List.forall_mem_append, ← LinkRecord.isSome_chain? front,
      ← PoolRecord.isSome_pool? p, LinkRecord.chain?]
    cases front.chain? <;> cases p.pool? <;> simp

end

mutual

/-- **A die is written as it was described.** -/
theorem DieRecord.toDatum?_of_die? :
    ∀ {t : DieRecord α} {d : Die α}, t.die? = some d → d.toDatum? = some t.datum
  | .fixed value _, d, h => by
    rw [DieRecord.die?] at h
    cases h
    rw [Die.toDatum?, DieRecord.datum]
  | .uniform e, d, h => by
    rw [DieRecord.die?] at h
    obtain ⟨u, hu, rfl⟩ := Option.map_eq_some_iff.1 h
    rw [Die.toDatum?, DieRecord.datum, Ends.toDatum_of_uniform? hu]
  | .pool p, d, h => by
    rw [DieRecord.die?] at h
    obtain ⟨q, hq, rfl⟩ := Option.map_eq_some_iff.1 h
    rw [Die.toDatum?, PoolRecord.toDatum?_of_pool? hq, DieRecord.datum]
    rfl
  | .link c, d, h | .chain c, d, h => by
    rw [DieRecord.die?] at h
    obtain ⟨c', hc, rfl⟩ := Option.map_eq_some_iff.1 h
    rw [Die.toDatum?, LinkRecord.toDatum?_of_chain? hc, DieRecord.datum]
    rfl

@[inherit_doc DieRecord.toDatum?_of_die?]
theorem PoolRecord.toDatum?_of_pool? :
    ∀ {t : PoolRecord α} {p : Pool α}, t.pool? = some p → p.toDatum? = some t.datum
  | .single value, p, h => by
    rw [PoolRecord.pool?] at h
    obtain ⟨v, hv, rfl⟩ := Option.map_eq_some_iff.1 h
    rw [Pool.toDatum?, DieRecord.toDatum?_of_die? hv, PoolRecord.datum]
    rfl
  | .counted count value, p, h => by
    rw [PoolRecord.pool?] at h
    obtain ⟨v, hv, h⟩ := Option.bind_eq_some_iff.1 h
    obtain ⟨n, hn, h⟩ := Option.bind_eq_some_iff.1 h
    cases h
    rw [Pool.toDatum?, DieRecord.toDatum?_of_die? hn, DieRecord.toDatum?_of_die? hv, PoolRecord.datum]
    rfl

@[inherit_doc DieRecord.toDatum?_of_die?]
theorem LinkRecord.toDatum?_of_chain? :
    ∀ {t : LinkRecord α} {c : Chain α}, t.chain? = some c → c.linkToDatum? = some t.datum
  | .head op p, c, h => by
    rw [LinkRecord.chain?] at h
    obtain ⟨q, hq, rfl⟩ := Option.map_eq_some_iff.1 h
    rw [Chain.linkToDatum?, PoolRecord.toDatum?_of_pool? hq, LinkRecord.datum]
    rfl
  | .append front op p, c, h => by
    rw [LinkRecord.chain?] at h
    obtain ⟨q, hq, h⟩ := Option.bind_eq_some_iff.1 h
    obtain ⟨f, hf, h⟩ := Option.bind_eq_some_iff.1 h
    cases h
    rw [Chain.linkToDatum?, LinkRecord.toDatum?_of_chain? hf, PoolRecord.toDatum?_of_pool? hq,
      LinkRecord.datum]
    rfl

end

/-! ### Fields in any order -/

namespace Datum

/-- What is read is `o`, if `P` holds, and otherwise nothing is.  Below, `o` is what a description
describes, and `P` says that its counts pass. -/
def ReadsAs {β : Type} (x : ReadResult α β) (o : Option β) (P : Prop) : Prop :=
  ∀ b, x = .ok b ↔ o = some b ∧ P

section

omit [Scalar α]
variable {β γ : Type} {x : ReadResult α β} {o : Option β} {P Q : Prop}

theorem ReadsAs.map (h : ReadsAs x o P) (f : β → γ) : ReadsAs (f <$> x) (f <$> o) P := by
  intro c
  rw [map_eq_ok_iff]
  constructor
  · rintro ⟨b, hb, rfl⟩
    obtain ⟨rfl, hP⟩ := (h b).1 hb
    exact ⟨rfl, hP⟩
  · rintro ⟨hc, hP⟩
    obtain ⟨b, rfl, rfl⟩ := Option.map_eq_some_iff.1 hc
    exact ⟨b, (h b).2 ⟨rfl, hP⟩, rfl⟩

theorem ReadsAs.bind {f : β → ReadResult α γ} {g : β → Option γ} (h : ReadsAs x o P)
    (hf : ∀ b, o = some b → ReadsAs (f b) (g b) Q) : ReadsAs (x >>= f) (o >>= g) (P ∧ Q) := by
  intro c
  rw [bind_eq_ok_iff]
  constructor
  · rintro ⟨b, hb, hc⟩
    obtain ⟨rfl, hP⟩ := (h b).1 hb
    obtain ⟨hg, hQ⟩ := (hf b rfl c).1 hc
    exact ⟨hg, hP, hQ⟩
  · rintro ⟨hc, hP, hQ⟩
    obtain ⟨b, rfl, hg⟩ := Option.bind_eq_some_iff.1 hc
    exact ⟨b, (h b).2 ⟨rfl, hP⟩, (hf b rfl c).2 ⟨hg, hQ⟩⟩

theorem readOperation_toDatum (op : Operation) :
    (op.toDatum : Datum α).readOperation = .ok op := by
  rw [Operation.toDatum, readOperation, Operation.ofName?_name]
  rfl

theorem optional_bind {d : Datum α} (h : d ≠ .null) (x : ReadResult α β)
    (f : Option β → ReadResult α γ) : optional d x >>= f = x >>= fun b => f (some b) := by
  have hsome : optional d x = some <$> x := by
    cases d with
    | null => exact absurd rfl h
    | _ => rfl
  rw [hsome, bind_map_left]

theorem readUniform_of_perm {e : Ends} {fs : List (String × Datum α)}
    (h : fs.Perm [("min", .integer e.min), ("max", .integer e.max)]) :
    (fields fs).readUniform = ReadError.check (Uniform.ofInterval e.min e.max) := by
  have hmin : (integer e.min : Datum α).readInt = .ok e.min := if_pos e.min_fits
  have hmax : (integer e.max : Datum α).readInt = .ok e.max := if_pos e.max_fits
  rcases List.perm_pair.1 h with rfl | rfl
  all_goals
    simp only [readUniform, readEnds, reduceIte, String.reduceEq, hmin, hmax]
    rfl

end

variable {fs : List (String × Datum α)}

/-- The order of the fields decides which error comes first, but not what is read. -/
theorem readPool_of_perm {v n : Datum α} {p : Pool α} (h : fs.Perm [("value", v), ("count", n)]) :
    (fields fs).readPool = .ok p ↔
      (do buildPool (← v.readDie) (← optional n n.readDie)) = .ok p := by
  rcases List.perm_pair.1 h with rfl | rfl
  all_goals
    simp only [readPool, readPoolFields, reduceIte, String.reduceEq, bind_eq_ok_iff,
      ReadError.require_eq_ok]
    grind

@[inherit_doc readPool_of_perm]
theorem readLink_of_perm {op : Operation} {p r : Datum α} {c : Chain α}
    (h : fs.Perm [("operation", op.toDatum), ("pool", p), ("previous", r)]) :
    (fields fs).readLink = .ok c ↔
      (do return buildLink op (← p.readPool) (← optional r r.readLink)) = .ok c := by
  -- In each of the six orders the parts are read one after the other.
  have horders := List.mem_permutations'.2 h
  simp only [List.permutations', List.permutations'Aux, List.flatMap_cons, List.flatMap_nil,
    List.map_cons, List.map_nil, List.append_nil, List.cons_append, List.nil_append,
    List.mem_cons, List.not_mem_nil, or_false] at horders
  rcases horders with rfl | rfl | rfl | rfl | rfl | rfl
  all_goals
    simp only [readLink, readLinkFields, reduceIte, String.reduceEq, bind_eq_ok_iff,
      ReadError.require_eq_ok, readOperation_toDatum, pure, Except.pure, Except.ok.injEq]
    grind

theorem readChain_last (r : Datum α) : (fields [("last", r)]).readChain = r.readLink := by
  rw [readChain]
  exact bind_pure r.readLink

end Datum

/-! ### Reading -/

/-- The die of the description passes as a count. -/
def DieRecord.IsCount (t : DieRecord α) : Prop :=
  ∃ d, t.die? = some d ∧ ¬ Scalar.trunc (d.bounds noCustom).low < Scalar.ofInt 1

theorem DieRecord.Writes.ne_null {t : DieRecord α} {d : Datum α} (h : t.Writes d) : d ≠ .null := by
  cases t <;> rw [Writes] at h
  · rintro rfl
    cases h
  all_goals
    obtain ⟨_, _, rfl⟩ := h
    rintro ⟨⟩

theorem LinkRecord.Writes.ne_null {t : LinkRecord α} {d : Datum α} (h : t.Writes d) :
    d ≠ .null := by
  cases t <;> rw [Writes] at h
  · obtain ⟨_, _, _, _, rfl⟩ := h
    rintro ⟨⟩
  · obtain ⟨_, _, _, _, _, _, rfl⟩ := h
    rintro ⟨⟩

theorem DieRecord.isCount_iff {t : DieRecord α} {d : Die α} (h : t.die? = some d) :
    t.IsCount ↔ ¬ Scalar.trunc (d.bounds noCustom).low < Scalar.ofInt 1 := by
  simp only [IsCount, h, Option.some.injEq, exists_eq_left']

/-- A pool with a count is built if the count passes. -/
theorem DieRecord.readsAs_buildPool {t : DieRecord α} {count : Die α} (h : t.die? = some count)
    (value : Die α) :
    Datum.ReadsAs (Datum.buildPool value (some count)) (some (.counted count value)) t.IsCount := by
  intro p
  rw [Datum.buildPool, ReadError.check_eq_ok, Pool.ofCount_eq_ok_iff, isCount_iff h,
    Option.some.injEq, eq_comm (a := p), and_comm]

open Datum

mutual

/-- **What a written record is read as:** the die of its description, if all its counts pass. -/
theorem DieRecord.Writes.readsAs : ∀ {t : DieRecord α} {r : Datum α}, t.Writes r →
    ReadsAs r.readDie t.die? (∀ n ∈ t.counts, n.IsCount)
  | .fixed value finite, r, h => by
    rw [DieRecord.Writes] at h
    subst h
    have hread : (fields [("value", .number value)]).readFixed = .ok value := if_pos finite
    intro d
    rw [readDie, DieRecord.die?, DieRecord.counts, hread]
    simp [eq_comm]
  | .uniform e, r, h => by
    rw [DieRecord.Writes] at h
    obtain ⟨fs, hfs, rfl⟩ := h
    have hread : ReadsAs (fields fs).readUniform e.uniform? True := by
      intro u
      rw [readUniform_of_perm hfs, ReadError.check_eq_ok, Ends.ofInterval_eq_ok_iff, and_true]
    rw [readDie, DieRecord.die?, DieRecord.counts]
    simpa using hread.map Die.uniform
  | .pool p, r, h => by
    rw [DieRecord.Writes] at h
    obtain ⟨s, hs, rfl⟩ := h
    rw [readDie, DieRecord.die?, DieRecord.counts]
    exact (PoolRecord.Writes.readsAs hs).map Die.pool
  | .link c, r, h => by
    rw [DieRecord.Writes] at h
    obtain ⟨s, hs, rfl⟩ := h
    rw [readDie, DieRecord.die?, DieRecord.counts]
    exact (LinkRecord.Writes.readsAs hs).map Die.link
  | .chain c, r, h => by
    rw [DieRecord.Writes] at h
    obtain ⟨s, hs, rfl⟩ := h
    rw [readDie, readChain_last, DieRecord.die?, DieRecord.counts]
    exact (LinkRecord.Writes.readsAs hs).map Die.chain

@[inherit_doc DieRecord.Writes.readsAs]
theorem PoolRecord.Writes.readsAs : ∀ {t : PoolRecord α} {r : Datum α}, t.Writes r →
    ReadsAs r.readPool t.pool? (∀ n ∈ t.counts, n.IsCount)
  | .single value, r, h => by
    rw [PoolRecord.Writes] at h
    obtain ⟨v, fs, hv, hfs, rfl⟩ := h
    intro p
    rw [readPool_of_perm hfs, PoolRecord.pool?, PoolRecord.counts]
    exact (DieRecord.Writes.readsAs hv).map Pool.single p
  | .counted count value, r, h => by
    rw [PoolRecord.Writes] at h
    obtain ⟨n, v, fs, hn, hv, hfs, rfl⟩ := h
    intro p
    simp only [readPool_of_perm hfs, optional_bind hn.ne_null]
    rw [PoolRecord.pool?, PoolRecord.counts, List.forall_mem_append, List.forall_mem_append,
      List.forall_mem_singleton]
    exact (DieRecord.Writes.readsAs hv).bind (fun x _ => (DieRecord.Writes.readsAs hn).bind
      fun m hm => DieRecord.readsAs_buildPool hm x) p

@[inherit_doc DieRecord.Writes.readsAs]
theorem LinkRecord.Writes.readsAs : ∀ {t : LinkRecord α} {r : Datum α}, t.Writes r →
    ReadsAs r.readLink t.chain? (∀ n ∈ t.counts, n.IsCount)
  | .head op p, r, h => by
    rw [LinkRecord.Writes] at h
    obtain ⟨q, fs, hq, hfs, rfl⟩ := h
    intro c
    rw [readLink_of_perm hfs, LinkRecord.chain?, LinkRecord.counts]
    exact (PoolRecord.Writes.readsAs hq).map (Chain.head op) c
  | .append front op p, r, h => by
    rw [LinkRecord.Writes] at h
    obtain ⟨f, q, fs, hf, hq, hfs, rfl⟩ := h
    intro c
    simp only [readLink_of_perm hfs, optional_bind hf.ne_null, LinkRecord.chain?, bind_pure_comp]
    rw [LinkRecord.counts, List.forall_mem_append]
    exact (PoolRecord.Writes.readsAs hq).bind (fun x _ =>
      (LinkRecord.Writes.readsAs hf).map fun front => Chain.append front op x) c

end

end DiceFormula
