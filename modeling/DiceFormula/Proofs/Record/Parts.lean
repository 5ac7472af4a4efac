/-
# The parts of a record

A record is read from its parts: its fields, or the items of a list under the names of the
fields in their place.  What was read says what the parts were read as, wherever they stand and
whatever stands beside them.

| read | parts |
| --- | --- |
| a pool | `value`, and `count` if there is one |
| a link | `operation`, `pool`, and `previous` if it is not the head |
| a chain | `last` |

Parts are smaller than what they are parts of, so a property of everything that is read from a
record is proved by recursion over the record.
-/

import DiceFormula.Record.Read
import Mathlib.Data.List.Forall2

namespace DiceFormula

variable {α β γ : Type}

/-! ### Results -/

theorem bind_eq_ok_iff {ε : Type} {x : Except ε β} {f : β → Except ε γ} {c : γ} :
    (x >>= f) = .ok c ↔ ∃ b, x = .ok b ∧ f b = .ok c := by
  cases x with
  | error e => exact ⟨by rintro ⟨⟩, by rintro ⟨_, ⟨⟩, -⟩⟩
  | ok b => exact ⟨fun h => ⟨b, rfl, h⟩, by rintro ⟨_, ⟨⟩, h⟩; exact h⟩

theorem map_eq_ok_iff {ε : Type} {x : Except ε β} {f : β → γ} {c : γ} :
    f <$> x = .ok c ↔ ∃ b, x = .ok b ∧ c = f b := by
  cases x with
  | error e => exact ⟨by rintro ⟨⟩, by rintro ⟨_, ⟨⟩, -⟩⟩
  | ok b => exact ⟨by rintro ⟨⟩; exact ⟨b, rfl, rfl⟩, by rintro ⟨_, ⟨⟩, rfl⟩; rfl⟩

theorem ReadError.require_eq_ok {o : Option β} {b : β} :
    (require o : ReadResult α β) = .ok b ↔ o = some b := by
  cases o with
  | none => exact ⟨by rintro ⟨⟩, by rintro ⟨⟩⟩
  | some b => exact ⟨by rintro ⟨⟩; rfl, by rintro ⟨⟩; rfl⟩

theorem ReadError.check_eq_ok {e : Except (ArgumentError α) β} {b : β} :
    check e = .ok b ↔ e = .ok b := by
  cases e with
  | error e => exact ⟨by rintro ⟨⟩, by rintro ⟨⟩⟩
  | ok b => exact ⟨by rintro ⟨⟩; rfl, by rintro ⟨⟩; rfl⟩

namespace Datum

theorem optional_eq_ok {d : Datum α} {x : ReadResult α β} {o : Option β}
    (h : optional d x = .ok o) : (d = .null ∧ o = none) ∨ ∃ b, x = .ok b ∧ o = some b := by
  cases d with
  | null => exact .inl ⟨rfl, (Except.ok.inj h).symm⟩
  | _ => exact .inr (map_eq_ok_iff.1 h)

/-! ### Parts -/

/-- The parts of a record whose fields have these names, if it is a list in this order. -/
def parts (names : List String) : Datum α → List (String × Datum α)
  | fields fs => fs
  | list items => names.zip items
  | _ => []

theorem sizeOf_lt_of_mem_parts {names : List String} {name : String} {d r : Datum α}
    (h : (name, r) ∈ d.parts names) : sizeOf r < sizeOf d := by
  cases d with
  | fields fs =>
    have hmem : (name, r) ∈ fs := h
    have hlt := List.sizeOf_lt_of_mem hmem
    simp only [Prod.mk.sizeOf_spec, fields.sizeOf_spec] at hlt ⊢
    omega
  | list items =>
    have hmem : r ∈ items := (List.of_mem_zip h).2
    have hlt := List.sizeOf_lt_of_mem hmem
    simp only [list.sizeOf_spec]
    omega
  | _ => exact absurd h List.not_mem_nil

/-- The fields of a pool. -/
def poolNames : List String := ["value", "count"]

/-- The fields of a link. -/
def linkNames : List String := ["operation", "pool", "previous"]

/-- What a part of this name was read as, or else what there was before. -/
def Found (fs : List (String × Datum α)) (name : String) (read : Datum α → ReadResult α β)
    (before : Option β) (b : β) : Prop :=
  before = some b ∨ ∃ r, (name, r) ∈ fs ∧ read r = .ok b

/-- The same for a part that may be null or missing. -/
def FoundOptional (fs : List (String × Datum α)) (name : String) (read : Datum α → ReadResult α β)
    (before o : Option β) : Prop :=
  (o = before ∧ ∀ r, (name, r) ∉ fs) ∨ (o = none ∧ (name, .null) ∈ fs) ∨
    ∃ r, (name, r) ∈ fs ∧ ∃ b, read r = .ok b ∧ o = some b

section

variable {fs : List (String × Datum α)} {name : String} {read : Datum α → ReadResult α β}
  {before : Option β} {d : Datum α}

theorem Found.skip {b : β} (f : String × Datum α) (h : Found fs name read before b) :
    Found (f :: fs) name read before b := by
  rcases h with h | ⟨r, hmem, hr⟩
  · exact .inl h
  · exact .inr ⟨r, List.mem_cons_of_mem f hmem, hr⟩

theorem Found.cons {b b' : β} (hd : read d = .ok b') (h : Found fs name read (some b') b) :
    Found ((name, d) :: fs) name read before b := by
  rcases h with h | ⟨r, hmem, hr⟩
  · cases h
    exact .inr ⟨d, List.mem_cons_self, hd⟩
  · exact .inr ⟨r, List.mem_cons_of_mem _ hmem, hr⟩

theorem FoundOptional.skip {o : Option β} (other : String) (hother : other ≠ name)
    (h : FoundOptional fs name read before o) :
    FoundOptional ((other, d) :: fs) name read before o := by
  rcases h with ⟨ho, hnot⟩ | ⟨ho, hmem⟩ | ⟨r, hmem, hr⟩
  · refine .inl ⟨ho, fun r hr => ?_⟩
    rcases List.mem_cons.1 hr with heq | hr
    · exact hother (congrArg Prod.fst heq).symm
    · exact hnot r hr
  · exact .inr (.inl ⟨ho, List.mem_cons_of_mem _ hmem⟩)
  · exact .inr (.inr ⟨r, List.mem_cons_of_mem _ hmem, hr⟩)

theorem FoundOptional.cons {o o' : Option β} (hd : optional d (read d) = .ok o')
    (h : FoundOptional fs name read o' o) :
    FoundOptional ((name, d) :: fs) name read before o := by
  rcases h with ⟨rfl, -⟩ | ⟨ho, hmem⟩ | ⟨r, hmem, hr⟩
  · rcases optional_eq_ok hd with ⟨rfl, rfl⟩ | ⟨b, hb, rfl⟩
    · exact .inr (.inl ⟨rfl, List.mem_cons_self⟩)
    · exact .inr (.inr ⟨d, List.mem_cons_self, b, hb, rfl⟩)
  · exact .inr (.inl ⟨ho, List.mem_cons_of_mem _ hmem⟩)
  · exact .inr (.inr ⟨r, List.mem_cons_of_mem _ hmem, hr⟩)

end

variable [Scalar α]

theorem readPoolFields_eq_ok {fs : List (String × Datum α)} {value count : Option (Die α)}
    {p : Pool α} (h : readPoolFields fs value count = .ok p) :
    ∃ v n, buildPool v n = .ok p ∧ Found fs "value" readDie value v ∧
      FoundOptional fs "count" readDie count n := by
  induction fs generalizing value count with
  | nil =>
    rw [readPoolFields, bind_eq_ok_iff] at h
    obtain ⟨v, hv, h⟩ := h
    exact ⟨v, count, h, .inl (ReadError.require_eq_ok.1 hv), .inl ⟨rfl, fun r => List.not_mem_nil⟩⟩
  | cons f fs ih =>
    obtain ⟨name, d⟩ := f
    rw [readPoolFields] at h
    split_ifs at h with hvalue hcount
    · subst hvalue
      obtain ⟨_, hd, h⟩ := bind_eq_ok_iff.1 h
      obtain ⟨v, n, hp, hv, hn⟩ := ih h
      exact ⟨v, n, hp, hv.cons hd, hn.skip _ (by decide)⟩
    · subst hcount
      obtain ⟨_, hd, h⟩ := bind_eq_ok_iff.1 h
      obtain ⟨v, n, hp, hv, hn⟩ := ih h
      exact ⟨v, n, hp, hv.skip _, hn.cons hd⟩
    · obtain ⟨v, n, hp, hv, hn⟩ := ih h
      exact ⟨v, n, hp, hv.skip _, hn.skip _ hcount⟩

theorem readLinkFields_eq_ok {fs : List (String × Datum α)} {op : Option Operation}
    {pool : Option (Pool α)} {previous : Option (Chain α)} {c : Chain α}
    (h : readLinkFields fs op pool previous = .ok c) :
    ∃ o p front, c = buildLink o p front ∧ Found fs "operation" readOperation op o ∧
      Found fs "pool" readPool pool p ∧ FoundOptional fs "previous" readLink previous front := by
  induction fs generalizing op pool previous with
  | nil =>
    rw [readLinkFields] at h
    obtain ⟨o, ho, h⟩ := bind_eq_ok_iff.1 h
    obtain ⟨p, hp, h⟩ := bind_eq_ok_iff.1 h
    exact ⟨o, p, previous, (Except.ok.inj h).symm, .inl (ReadError.require_eq_ok.1 ho),
      .inl (ReadError.require_eq_ok.1 hp), .inl ⟨rfl, fun r => List.not_mem_nil⟩⟩
  | cons f fs ih =>
    obtain ⟨name, d⟩ := f
    rw [readLinkFields] at h
    split_ifs at h with hoperation hpool hprevious
    · subst hoperation
      obtain ⟨_, hd, h⟩ := bind_eq_ok_iff.1 h
      obtain ⟨o, p, front, hc, ho, hp, hfront⟩ := ih h
      exact ⟨o, p, front, hc, ho.cons hd, hp.skip _, hfront.skip _ (by decide)⟩
    · subst hpool
      obtain ⟨_, hd, h⟩ := bind_eq_ok_iff.1 h
      obtain ⟨o, p, front, hc, ho, hp, hfront⟩ := ih h
      exact ⟨o, p, front, hc, ho.skip _, hp.cons hd, hfront.skip _ (by decide)⟩
    · subst hprevious
      obtain ⟨_, hd, h⟩ := bind_eq_ok_iff.1 h
      obtain ⟨o, p, front, hc, ho, hp, hfront⟩ := ih h
      exact ⟨o, p, front, hc, ho.skip _, hp.skip _, hfront.cons hd⟩
    · obtain ⟨o, p, front, hc, ho, hp, hfront⟩ := ih h
      exact ⟨o, p, front, hc, ho.skip _, hp.skip _, hfront.skip _ hprevious⟩

theorem readLast_eq_ok {fs : List (String × Datum α)} {last : Option (Chain α)} {c : Chain α}
    (h : readLast fs last = .ok c) : Found fs "last" readLink last c := by
  induction fs generalizing last with
  | nil =>
    rw [readLast] at h
    exact .inl (ReadError.require_eq_ok.1 h)
  | cons f fs ih =>
    obtain ⟨name, d⟩ := f
    rw [readLast] at h
    split_ifs at h with hlast
    · subst hlast
      obtain ⟨_, hd, h⟩ := bind_eq_ok_iff.1 h
      exact (ih h).cons hd
    · exact (ih h).skip _

/-- **A pool is built from what its parts are read as.** -/
theorem readPool_eq_ok {d : Datum α} {p : Pool α} (h : d.readPool = .ok p) :
    ∃ v n, buildPool v n = .ok p ∧ Found (d.parts poolNames) "value" readDie none v ∧
      FoundOptional (d.parts poolNames) "count" readDie none n := by
  cases d with
  | fields fs =>
    rw [readPool] at h
    exact readPoolFields_eq_ok h
  | list items =>
    rw [readPool] at h
    rcases items with _ | ⟨value, _ | ⟨count, rest⟩⟩
    · cases h
    · rw [readPoolItems] at h
      obtain ⟨_, -, h⟩ := bind_eq_ok_iff.1 h
      cases h
    · rw [readPoolItems] at h
      obtain ⟨v, hv, h⟩ := bind_eq_ok_iff.1 h
      obtain ⟨n, hn, h⟩ := bind_eq_ok_iff.1 h
      split_ifs at h
      have hnone : FoundOptional [] "count" readDie n n := .inl ⟨rfl, fun r => List.not_mem_nil⟩
      exact ⟨v, n, h, .inr ⟨value, List.mem_cons_self, hv⟩,
        (hnone.cons hn).skip "value" (by decide)⟩
  | _ => cases h

/-- **A link is built from what its parts are read as.** -/
theorem readLink_eq_ok {d : Datum α} {c : Chain α} (h : d.readLink = .ok c) :
    ∃ o p front, c = buildLink o p front ∧
      Found (d.parts linkNames) "operation" readOperation none o ∧
      Found (d.parts linkNames) "pool" readPool none p ∧
      FoundOptional (d.parts linkNames) "previous" readLink none front := by
  cases d with
  | fields fs =>
    rw [readLink] at h
    exact readLinkFields_eq_ok h
  | list items =>
    rw [readLink] at h
    rcases items with _ | ⟨op, _ | ⟨pool, _ | ⟨previous, rest⟩⟩⟩
    · cases h
    · cases h
    · rw [readLinkItems] at h
      obtain ⟨_, -, h⟩ := bind_eq_ok_iff.1 h
      obtain ⟨_, -, h⟩ := bind_eq_ok_iff.1 h
      cases h
    · rw [readLinkItems] at h
      obtain ⟨o, ho, h⟩ := bind_eq_ok_iff.1 h
      obtain ⟨p, hp, h⟩ := bind_eq_ok_iff.1 h
      obtain ⟨front, hfront, h⟩ := bind_eq_ok_iff.1 h
      split_ifs at h
      have hnone : FoundOptional [] "previous" readLink front front :=
        .inl ⟨rfl, fun r => List.not_mem_nil⟩
      exact ⟨o, p, front, (Except.ok.inj h).symm, .inr ⟨op, List.mem_cons_self, ho⟩,
        .inr ⟨pool, List.mem_cons_of_mem _ List.mem_cons_self, hp⟩,
        ((hnone.cons hfront).skip "pool" (by decide)).skip "operation" (by decide)⟩
  | _ => cases h

/-- **A chain is its last link.** -/
theorem readChain_eq_ok {d : Datum α} {c : Chain α} (h : d.readChain = .ok c) :
    ∃ r, ("last", r) ∈ d.parts ["last"] ∧ r.readLink = .ok c := by
  cases d with
  | fields fs =>
    rw [readChain] at h
    exact (readLast_eq_ok h).resolve_left (by rintro ⟨⟩)
  | list items =>
    rw [readChain] at h
    cases items with
    | nil => cases h
    | cons last rest =>
      rw [readOnly] at h
      obtain ⟨c', hc, h⟩ := bind_eq_ok_iff.1 h
      split_ifs at h
      cases h
      exact ⟨last, List.mem_cons_self, hc⟩
  | _ => cases h

/-- **A die is read from its only field.** -/
theorem readDie_eq_ok {d : Datum α} {die : Die α} (h : d.readDie = .ok die) :
    ∃ kind r, d = .fields [(kind, r)] ∧
      ((∃ x, r.readFixed = .ok x ∧ die = .fixed x) ∨
        (∃ u, r.readUniform = .ok u ∧ die = .uniform u) ∨
        (∃ p, r.readPool = .ok p ∧ die = .pool p) ∨
        (∃ c, r.readLink = .ok c ∧ die = .link c) ∨ ∃ c, r.readChain = .ok c ∧ die = .chain c) := by
  cases d with
  | fields fs =>
    rcases fs with _ | ⟨⟨kind, r⟩, _ | ⟨_, _⟩⟩
    · cases h
    · refine ⟨kind, r, rfl, ?_⟩
      rw [readDie] at h
      split_ifs at h
      · exact .inl (map_eq_ok_iff.1 h)
      · exact .inr (.inl (map_eq_ok_iff.1 h))
      · exact .inr (.inr (.inl (map_eq_ok_iff.1 h)))
      · exact .inr (.inr (.inr (.inl (map_eq_ok_iff.1 h))))
      · exact .inr (.inr (.inr (.inr (map_eq_ok_iff.1 h))))
    · cases h
  | _ => cases h

end Datum
end DiceFormula
