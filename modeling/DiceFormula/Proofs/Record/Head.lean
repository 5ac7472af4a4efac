/-
# How chains begin

Nothing stands in front of the head of a chain, so its operation is a formality: a formula
leaves it out, and the builders make it plus.  Then a chain is known from its links without it
(`Registry.chainOf?_links`).

| a chain comes from | its head is |
| --- | --- |
| a pool | plus |
| a chain and a link, or a pending link that is told its dice | that of the chain, or plus |
| an expression, with any registry | plus |
| a record | what the record says |
| another chain, or a record, inside of which it stands | any of these |

What can be had depends on the records that are read, and on nothing else: the builders keep the
head.  So if all chains start with a plus in these records, then all chains do; and otherwise a
chain with another head goes back to one of the records, and to the first link of a chain in it
(`Chain.Obtained.head_eq_plus_of_records`).  Reading does not check that link: there are chains
that print as a formula of something else (`Chain.not_plus_of_recorded_minus`).
-/

import DiceFormula.Expression.Registry
import DiceFormula.Proofs.Expression.Normalisation
import DiceFormula.Proofs.Record.Written

namespace DiceFormula

variable {α : Type}

/-! ### Chains inside -/

mutual

/-- The chains inside a die, itself included. -/
def Die.chains : Die α → List (Chain α)
  | .fixed _ | .uniform _ | .custom _ => []
  | .pool p => p.chains
  | .link c => c.inner
  | .chain c => c :: c.inner

@[inherit_doc Die.chains]
def Pool.chains : Pool α → List (Chain α)
  | .single value => value.chains
  | .counted count value => count.chains ++ value.chains

/-- The chains inside the pools of a chain. -/
def Chain.inner : Chain α → List (Chain α)
  | .head _ p => p.chains
  | .append front _ p => front.inner ++ p.chains

end

mutual

/-- What is inside a chain inside a die is inside the die. -/
theorem Die.inner_subset_of_mem_chains :
    ∀ (d : Die α) {c : Chain α}, c ∈ d.chains → c.inner ⊆ d.chains
  | .pool p, c, h => by
    rw [Die.chains] at h ⊢
    exact Pool.inner_subset_of_mem_chains p h
  | .link c', c, h => by
    rw [Die.chains] at h ⊢
    exact Chain.inner_subset_of_mem_inner c' h
  | .chain c', c, h => by
    rw [Die.chains] at h ⊢
    refine List.subset_cons_of_subset c' ?_
    rcases List.mem_cons.1 h with rfl | h
    · exact List.Subset.refl _
    · exact Chain.inner_subset_of_mem_inner c' h
  | .fixed _, c, h | .uniform _, c, h | .custom _, c, h => by
    rw [Die.chains] at h
    exact absurd h List.not_mem_nil

@[inherit_doc Die.inner_subset_of_mem_chains]
theorem Pool.inner_subset_of_mem_chains :
    ∀ (p : Pool α) {c : Chain α}, c ∈ p.chains → c.inner ⊆ p.chains
  | .single value, c, h => by
    rw [Pool.chains] at h ⊢
    exact Die.inner_subset_of_mem_chains value h
  | .counted count value, c, h => by
    rw [Pool.chains] at h ⊢
    rcases List.mem_append.1 h with h | h
    · exact List.subset_append_of_subset_left _ (Die.inner_subset_of_mem_chains count h)
    · exact List.subset_append_of_subset_right _ (Die.inner_subset_of_mem_chains value h)

@[inherit_doc Die.inner_subset_of_mem_chains]
theorem Chain.inner_subset_of_mem_inner :
    ∀ (c' : Chain α) {c : Chain α}, c ∈ c'.inner → c.inner ⊆ c'.inner
  | .head _ p, c, h => by
    rw [Chain.inner] at h ⊢
    exact Pool.inner_subset_of_mem_chains p h
  | .append front _ p, c, h => by
    rw [Chain.inner] at h ⊢
    rcases List.mem_append.1 h with h | h
    · exact List.subset_append_of_subset_left _ (Chain.inner_subset_of_mem_inner front h)
    · exact List.subset_append_of_subset_right _ (Pool.inner_subset_of_mem_chains p h)

end

/-- The chains inside a chain are those inside the pools of its links. -/
theorem Chain.mem_inner_iff {c' : Chain α} :
    ∀ {c : Chain α}, c' ∈ c.inner ↔ ∃ l ∈ c.links, c' ∈ l.pool.chains
  | .head op p => by
    rw [inner, links_head]
    exact ⟨fun h => ⟨_, List.mem_singleton_self _, h⟩, by
      rintro ⟨l, hl, h⟩
      rw [List.mem_singleton.1 hl] at h
      exact h⟩
  | .append front op p => by
    rw [inner, links_append, List.mem_append, mem_inner_iff (c := front)]
    simp only [List.mem_append, List.mem_singleton, or_and_right, exists_or, exists_eq_left]

variable [Scalar α]

/-! ### Records -/

namespace Datum

/-- The record of a link whose chain has a first link with the operation `op`. -/
inductive LinkStarts (op : Operation) : Datum α → Prop where
  | head {d r : Datum α} (hr : ("operation", r) ∈ d.parts linkNames) (h : r.readOperation = .ok op)
      (hd : ("previous", .null) ∈ d.parts linkNames ∨ ∀ r, ("previous", r) ∉ d.parts linkNames) :
      LinkStarts op d
  | append {d r : Datum α} (hr : ("previous", r) ∈ d.parts linkNames) (h : LinkStarts op r) :
      LinkStarts op d

/-- The record of a chain whose first link has the operation `op`. -/
def ChainStarts (op : Operation) (d : Datum α) : Prop :=
  ∃ r, ("last", r) ∈ d.parts ["last"] ∧ r.LinkStarts op

theorem linkStarts_of_readLink {d : Datum α} {c : Chain α} (h : d.readLink = .ok c) :
    d.LinkStarts c.first.operation := by
  obtain ⟨o, p, front, rfl, ho, -, hfront⟩ := readLink_eq_ok h
  obtain ⟨r, hr, ho⟩ := ho.resolve_left (by rintro ⟨⟩)
  rcases hfront with ⟨rfl, hnot⟩ | ⟨rfl, hnull⟩ | ⟨r', hr', c, hc, rfl⟩
  · exact .head hr ho (.inr hnot)
  · exact .head hr ho (.inl hnull)
  · have hlt := sizeOf_lt_of_mem_parts hr'
    have hstarts := linkStarts_of_readLink hc
    exact .append hr' hstarts
termination_by sizeOf d

/-- **A chain that was read starts as its record says.** -/
theorem chainStarts_of_readChain {d : Datum α} {c : Chain α} (h : d.readChain = .ok c) :
    d.ChainStarts c.first.operation := by
  obtain ⟨r, hr, hc⟩ := readChain_eq_ok h
  exact ⟨r, hr, linkStarts_of_readLink hc⟩

/-- A record inside another, itself included. -/
inductive Within : Datum α → Datum α → Prop where
  | refl (d : Datum α) : Within d d
  | part {r s d : Datum α} {names : List String} {name : String} (hr : Within r s)
      (hs : (name, s) ∈ d.parts names) : Within r d

/-- A record in which every chain starts with a plus. -/
def HeadsPlus (d : Datum α) : Prop :=
  ∀ (r : Datum α) (op : Operation), r.Within d → r.ChainStarts op → op = .plus

/-- A chain that stands inside a record and was read from there. -/
def Holds (d : Datum α) (c : Chain α) : Prop := ∃ r : Datum α, r.Within d ∧ r.readChain = .ok c

theorem Holds.of_part {d s : Datum α} {names : List String} {name : String} {c : Chain α}
    (h : s.Holds c) (hs : (name, s) ∈ d.parts names) : d.Holds c := by
  obtain ⟨r, hr, hc⟩ := h
  exact ⟨r, hr.part hs, hc⟩

mutual

/-- The chains inside what was read were read themselves, from inside the same record. -/
theorem holds_of_readDie {d : Datum α} {die : Die α} (h : d.readDie = .ok die) :
    ∀ c ∈ die.chains, d.Holds c := by
  obtain ⟨kind, r, rfl, hdie⟩ := readDie_eq_ok h
  have hmem : (kind, r) ∈ (fields [(kind, r)]).parts [] := List.mem_singleton_self _
  have hlt := sizeOf_lt_of_mem_parts hmem
  intro c hc
  rcases hdie with ⟨x, -, rfl⟩ | ⟨u, -, rfl⟩ | ⟨p, hp, rfl⟩ | ⟨c', hc', rfl⟩ | ⟨c', hc', rfl⟩
  · rw [Die.chains] at hc
    exact absurd hc List.not_mem_nil
  · rw [Die.chains] at hc
    exact absurd hc List.not_mem_nil
  · rw [Die.chains] at hc
    exact (holds_of_readPool hp c hc).of_part hmem
  · rw [Die.chains] at hc
    exact (holds_of_readLink hc' c hc).of_part hmem
  · rw [Die.chains] at hc
    rcases List.mem_cons.1 hc with rfl | hc
    · exact ⟨r, .part (.refl r) hmem, hc'⟩
    · obtain ⟨r', hr', hc'⟩ := readChain_eq_ok hc'
      have hlt' := sizeOf_lt_of_mem_parts hr'
      exact ((holds_of_readLink hc' c hc).of_part hr').of_part hmem
termination_by sizeOf d

@[inherit_doc holds_of_readDie]
theorem holds_of_readPool {d : Datum α} {p : Pool α} (h : d.readPool = .ok p) :
    ∀ c ∈ p.chains, d.Holds c := by
  obtain ⟨v, n, hp, hv, hn⟩ := readPool_eq_ok h
  obtain ⟨r, hr, hv⟩ := hv.resolve_left (by rintro ⟨⟩)
  have hlt := sizeOf_lt_of_mem_parts hr
  have hvalue : ∀ c ∈ v.chains, d.Holds c := fun c hc => (holds_of_readDie hv c hc).of_part hr
  rcases hn with ⟨rfl, -⟩ | ⟨rfl, -⟩ | ⟨r', hr', m, hm, rfl⟩
  · cases hp
    rw [Pool.chains]
    exact hvalue
  · cases hp
    rw [Pool.chains]
    exact hvalue
  · have hlt' := sizeOf_lt_of_mem_parts hr'
    have hcount : ∀ c ∈ m.chains, d.Holds c := fun c hc => (holds_of_readDie hm c hc).of_part hr'
    rw [(Pool.ofCount_eq_ok_iff.1 (ReadError.check_eq_ok.1 hp)).2, Pool.chains]
    exact List.forall_mem_append.2 ⟨hcount, hvalue⟩
termination_by sizeOf d

@[inherit_doc holds_of_readDie]
theorem holds_of_readLink {d : Datum α} {c' : Chain α} (h : d.readLink = .ok c') :
    ∀ c ∈ c'.inner, d.Holds c := by
  obtain ⟨o, p, front, rfl, -, hp, hfront⟩ := readLink_eq_ok h
  obtain ⟨r, hr, hp⟩ := hp.resolve_left (by rintro ⟨⟩)
  have hlt := sizeOf_lt_of_mem_parts hr
  have hpool : ∀ c ∈ p.chains, d.Holds c := fun c hc => (holds_of_readPool hp c hc).of_part hr
  rcases hfront with ⟨rfl, -⟩ | ⟨rfl, -⟩ | ⟨r', hr', f, hf, rfl⟩
  · rw [buildLink, Chain.inner]
    exact hpool
  · rw [buildLink, Chain.inner]
    exact hpool
  · have hlt' := sizeOf_lt_of_mem_parts hr'
    have hinner : ∀ c ∈ f.inner, d.Holds c := fun c hc => (holds_of_readLink hf c hc).of_part hr'
    rw [buildLink, Chain.inner]
    exact List.forall_mem_append.2 ⟨hinner, hpool⟩
termination_by sizeOf d

end

/-- The chains inside a chain that was read are in its record too. -/
theorem holds_of_readChain {d : Datum α} {c' : Chain α} (h : d.readChain = .ok c') :
    ∀ c ∈ c'.inner, d.Holds c := by
  obtain ⟨r, hr, hlink⟩ := readChain_eq_ok h
  exact fun c hc => (holds_of_readLink hlink c hc).of_part hr

end Datum

/-! ### Stored dice -/

section

omit [Scalar α]

namespace Datum

/-- A record starts its chains with a plus, if it does and its parts do. -/
theorem headsPlus_of_parts {d : Datum α} (hstarts : ∀ op, d.ChainStarts op → op = .plus)
    (hparts : ∀ names name r, (name, r) ∈ d.parts names → r.HeadsPlus) : d.HeadsPlus := by
  intro r op hr h
  cases hr with
  | refl => exact hstarts op h
  | part hr hs => exact hparts _ _ _ hs r op hr h

/-- What has no parts is the record of no chain. -/
theorem headsPlus_of_parts_eq_nil {d : Datum α} (h : ∀ names, d.parts names = []) :
    d.HeadsPlus := by
  have hnot (names : List String) (f : String × Datum α) : f ∉ d.parts names := by
    rw [h]
    exact List.not_mem_nil
  exact headsPlus_of_parts (fun _ ⟨_, hr, _⟩ => absurd hr (hnot _ _))
    fun _ _ _ hr => absurd hr (hnot _ _)

/-- Fields without a last link are the record of no chain. -/
theorem headsPlus_fields {fs : List (String × Datum α)} (hlast : "last" ∉ fs.map Prod.fst)
    (hparts : ∀ f ∈ fs, f.2.HeadsPlus) : (fields fs).HeadsPlus :=
  headsPlus_of_parts (fun _ ⟨_, hr, _⟩ => absurd (List.mem_map_of_mem hr) hlast)
    fun _ name r hr => hparts (name, r) hr

theorem headsPlus_singleton {name : String} {r : Datum α} (hname : name ≠ "last")
    (h : r.HeadsPlus) : (fields [(name, r)]).HeadsPlus :=
  headsPlus_fields (by simpa using hname.symm) (List.forall_mem_singleton.2 h)

theorem headsPlus_link {op : Operation} {p previous : Datum α} (hp : p.HeadsPlus)
    (hprevious : previous.HeadsPlus) :
    (fields [("operation", op.toDatum), ("pool", p), ("previous", previous)]).HeadsPlus := by
  have hop : (op.toDatum : Datum α).HeadsPlus := headsPlus_of_parts_eq_nil fun _ => rfl
  refine headsPlus_fields (by simp) ?_
  simp only [List.forall_mem_cons]
  exact ⟨hop, hp, hprevious, by simp⟩

end Datum

theorem Chain.linkToDatum?_ne_null (c : Chain α) : c.linkToDatum? ≠ some .null := by
  intro h
  cases c with
  | head op p =>
    obtain ⟨_, -, hr⟩ := Option.bind_eq_some_iff.1 h
    cases hr
  | append front op p =>
    obtain ⟨_, -, hr⟩ := Option.bind_eq_some_iff.1 h
    obtain ⟨_, -, hr⟩ := Option.bind_eq_some_iff.1 hr
    cases hr

/-- The record of a stored link says how its chain starts. -/
theorem Chain.eq_first_of_linkStarts {op : Operation} : ∀ {c : Chain α} {r : Datum α},
    c.linkToDatum? = some r → r.LinkStarts op → op = c.first.operation
  | .head op' p, r, hc, h => by
    obtain ⟨p', -, hr⟩ := Option.bind_eq_some_iff.1 hc
    cases hr
    cases h with
    | @head _ s hs h hd =>
      obtain rfl : s = op'.toDatum := by simpa [Datum.parts] using hs
      rw [Datum.readOperation_toDatum] at h
      exact (Except.ok.inj h).symm
    | @append _ s hs h =>
      obtain rfl : s = .null := by simpa [Datum.parts] using hs
      cases h with
      | head hr | append hr => exact absurd hr List.not_mem_nil
  | .append front op' p, r, hc, h => by
    obtain ⟨p', -, hr⟩ := Option.bind_eq_some_iff.1 hc
    obtain ⟨f, hf, hr⟩ := Option.bind_eq_some_iff.1 hr
    cases hr
    cases h with
    | @head _ s hs h hd =>
      rcases hd with hd | hd
      · obtain rfl : .null = f := by simpa [Datum.parts] using hd
        exact absurd hf front.linkToDatum?_ne_null
      · exact absurd (by simp [Datum.parts]) (hd f)
    | @append _ s hs h =>
      obtain rfl : s = f := by simpa [Datum.parts] using hs
      have hfirst : op = front.first.operation := eq_first_of_linkStarts hf h
      exact hfirst

mutual

/-- **Stored dice keep their heads:** if all chains inside a die start with a plus, then they do so
in its record. -/
theorem Die.headsPlus_of_toDatum? : ∀ {d : Die α} {r : Datum α}, d.toDatum? = some r →
    (∀ c ∈ d.chains, c.first.operation = .plus) → r.HeadsPlus
  | .fixed x, r, hr, _ => by
    cases hr
    have hx : (Datum.number x).HeadsPlus := Datum.headsPlus_of_parts_eq_nil fun _ => rfl
    exact Datum.headsPlus_singleton (by decide) (Datum.headsPlus_singleton (by decide) hx)
  | .uniform u, r, hr, _ => by
    cases hr
    have hn (n : Int) : (Datum.integer n : Datum α).HeadsPlus :=
      Datum.headsPlus_of_parts_eq_nil fun _ => rfl
    refine Datum.headsPlus_singleton (by decide) (Datum.headsPlus_fields (by simp) ?_)
    simp only [List.forall_mem_cons]
    exact ⟨hn u.min, hn u.max, by simp⟩
  | .pool p, r, hr, h => by
    rw [Die.toDatum?] at hr
    obtain ⟨p', hp, hr⟩ := Option.bind_eq_some_iff.1 hr
    cases hr
    rw [Die.chains] at h
    exact Datum.headsPlus_singleton (by decide) (Pool.headsPlus_of_toDatum? hp h)
  | .link c, r, hr, h => by
    rw [Die.toDatum?] at hr
    obtain ⟨c', hc, hr⟩ := Option.bind_eq_some_iff.1 hr
    cases hr
    rw [Die.chains] at h
    exact Datum.headsPlus_singleton (by decide) (Chain.headsPlus_of_linkToDatum? hc h)
  | .chain c, r, hr, h => by
    rw [Die.toDatum?] at hr
    obtain ⟨c', hc, hr⟩ := Option.bind_eq_some_iff.1 hr
    cases hr
    rw [Die.chains, List.forall_mem_cons] at h
    refine Datum.headsPlus_singleton (by decide) (Datum.headsPlus_of_parts ?_ ?_)
    · rintro op ⟨s, hs, hstarts⟩
      obtain rfl : s = c' := by simpa [Datum.parts] using hs
      rw [Chain.eq_first_of_linkStarts hc hstarts]
      exact h.1
    · intro names name s hs
      obtain ⟨-, rfl⟩ : name = "last" ∧ s = c' := by simpa [Datum.parts] using hs
      exact Chain.headsPlus_of_linkToDatum? hc h.2
  | .custom _, r, hr, _ => by cases hr

@[inherit_doc Die.headsPlus_of_toDatum?]
theorem Pool.headsPlus_of_toDatum? : ∀ {p : Pool α} {r : Datum α}, p.toDatum? = some r →
    (∀ c ∈ p.chains, c.first.operation = .plus) → r.HeadsPlus
  | .single value, r, hr, h => by
    rw [Pool.toDatum?] at hr
    obtain ⟨v, hv, hr⟩ := Option.bind_eq_some_iff.1 hr
    cases hr
    rw [Pool.chains] at h
    refine Datum.headsPlus_fields (by simp) ?_
    simp only [List.forall_mem_cons]
    exact ⟨Die.headsPlus_of_toDatum? hv h, Datum.headsPlus_of_parts_eq_nil fun _ => rfl, by simp⟩
  | .counted count value, r, hr, h => by
    rw [Pool.toDatum?] at hr
    obtain ⟨v, hv, hr⟩ := Option.bind_eq_some_iff.1 hr
    obtain ⟨n, hn, hr⟩ := Option.bind_eq_some_iff.1 hr
    cases hr
    rw [Pool.chains, List.forall_mem_append] at h
    refine Datum.headsPlus_fields (by simp) ?_
    simp only [List.forall_mem_cons]
    exact ⟨Die.headsPlus_of_toDatum? hv h.2, Die.headsPlus_of_toDatum? hn h.1, by simp⟩

/-- The record of a stored link is that of no chain, but there may be chains inside. -/
theorem Chain.headsPlus_of_linkToDatum? : ∀ {c : Chain α} {r : Datum α}, c.linkToDatum? = some r →
    (∀ c' ∈ c.inner, c'.first.operation = .plus) → r.HeadsPlus
  | .head op p, r, hr, h => by
    rw [Chain.linkToDatum?] at hr
    obtain ⟨p', hp, hr⟩ := Option.bind_eq_some_iff.1 hr
    cases hr
    rw [Chain.inner] at h
    exact Datum.headsPlus_link (Pool.headsPlus_of_toDatum? hp h)
      (Datum.headsPlus_of_parts_eq_nil fun _ => rfl)
  | .append front op p, r, hr, h => by
    rw [Chain.linkToDatum?] at hr
    obtain ⟨p', hp, hr⟩ := Option.bind_eq_some_iff.1 hr
    obtain ⟨f, hf, hr⟩ := Option.bind_eq_some_iff.1 hr
    cases hr
    rw [Chain.inner, List.forall_mem_append] at h
    exact Datum.headsPlus_link (Pool.headsPlus_of_toDatum? hp h.2)
      (Chain.headsPlus_of_linkToDatum? hf h.1)

end

end

/-! ### Builders and expressions -/

/-- What is built when a pending link is told its dice. -/
theorem PendingLink.eq_of_die_eq_ok {custom : CustomDie → Bounds α} {s : PendingLink α}
    {value : Die α} {c : Chain α} (h : s.die custom value = .ok c) :
    (s.previous = none ∧ c = .ofPool (.counted s.amount value)) ∨
      ∃ front, s.previous = some front ∧
        c = front.append s.operation (.counted s.amount value) := by
  rw [die] at h
  cases hp : Pool.ofCount custom s.amount value with
  | error e => rw [hp] at h; cases h
  | ok p =>
    rw [hp] at h
    obtain rfl := (Pool.ofCount_eq_ok_iff.1 hp).2
    cases hprevious : s.previous with
    | none =>
      rw [hprevious] at h
      exact .inl ⟨rfl, (Except.ok.inj h).symm⟩
    | some front =>
      rw [hprevious] at h
      exact .inr ⟨front, rfl, (Except.ok.inj h).symm⟩

namespace Registry

variable {r : Registry α}

omit [Scalar α] in
theorem readNode?_of_readLink {s : Segment} {l : Link α} (h : r.readLink s = .ok l) :
    ∃ node, r.readNode? node = some l.pool := by
  rw [readLink, readSegment] at h
  split_ifs at h
  · cases h
  · split at h
    · rename_i pool hpool
      cases h
      exact ⟨_, hpool⟩
    · cases h

omit [Scalar α] in
/-- Every pool that was read is known to some parser. -/
theorem readNode?_of_mapM {ss : List Segment} {ls : List (Link α)}
    (h : ss.mapM r.readLink = .ok ls) : ∀ l ∈ ls, ∃ node, r.readNode? node = some l.pool := by
  induction ss generalizing ls with
  | nil =>
    cases h
    exact fun l hl => absurd hl List.not_mem_nil
  | cons s ss ih =>
    rw [List.mapM_cons] at h
    cases hl : r.readLink s with
    | error e => rw [hl] at h; cases h
    | ok l =>
      cases hls : ss.mapM r.readLink with
      | error e => rw [hl, hls] at h; cases h
      | ok ls' =>
        rw [hl, hls] at h
        cases h
        exact List.forall_mem_cons.2 ⟨readNode?_of_readLink hl, ih hls⟩

omit [Scalar α] in
/-- **An expression starts with a plus,** whatever the registry. -/
theorem first_of_readChain {text : String} {c : Chain α} (h : r.readChain text = .ok c) :
    c.first.operation = .plus ∧ ∀ l ∈ c.links, ∃ node, r.readNode? node = some l.pool := by
  rw [readChain] at h
  cases hss : Expression.split text.toList with
  | error e => rw [hss] at h; cases h
  | ok ss =>
    cases hls : ss.mapM r.readLink with
    | error e => simp only [hss, bind, Except.bind, hls] at h; cases h
    | ok ls =>
      simp only [hss, bind, Except.bind, hls] at h
      have hknown := readNode?_of_mapM hls
      cases ls with
      | nil => cases h
      | cons l ls =>
        cases h
        rw [Chain.first_extend, Chain.links_extend]
        exact ⟨rfl, List.forall_mem_cons.2 (List.forall_mem_cons.1 hknown)⟩

end Registry

/-! ### All chains -/

theorem Pool.IsNode.chains_eq_nil {p : Pool α} (h : p.IsNode) :
    p.chains = [] := by
  cases h <;> simp only [Pool.chains, Die.chains, List.append_nil]

namespace Chain

/-- A chain that can be had when some records are read: from the builders, an expression, one of
the records, or from inside another chain or what else was read. -/
inductive Obtained (records : Set (Datum α)) : Chain α → Prop where
  | ofPool {p : Pool α} (hp : ∀ c ∈ p.chains, Obtained records c) : Obtained records (ofPool p)
  | append {front : Chain α} (op : Operation) {p : Pool α} (hf : Obtained records front)
      (hp : ∀ c ∈ p.chains, Obtained records c) : Obtained records (front.append op p)
  | finish {custom : CustomDie → Bounds α} {s : PendingLink α} {value : Die α} {c : Chain α}
      (hs : ∀ front ∈ s.previous, Obtained records front)
      (ha : ∀ c ∈ s.amount.chains, Obtained records c)
      (hv : ∀ c ∈ value.chains, Obtained records c) (h : s.die custom value = .ok c) :
      Obtained records c
  | parse {r : Registry α} {text : String} {c : Chain α}
      (hr : ∀ node pool, r.readNode? node = some pool → ∀ c ∈ pool.chains, Obtained records c)
      (h : r.readChain text = .ok c) : Obtained records c
  | read {d : Datum α} {c : Chain α} (hd : d ∈ records) (h : d.readChain = .ok c) :
      Obtained records c
  | readDie {d : Datum α} {die : Die α} {c : Chain α} (hd : d ∈ records)
      (h : d.readDie = .ok die) (hc : c ∈ die.chains) : Obtained records c
  | readPool {d : Datum α} {p : Pool α} {c : Chain α} (hd : d ∈ records)
      (h : d.readPool = .ok p) (hc : c ∈ p.chains) : Obtained records c
  | readLink {d : Datum α} {c c' : Chain α} (hd : d ∈ records) (h : d.readLink = .ok c')
      (hc : c ∈ c'.inner) : Obtained records c
  | inside {c c' : Chain α} (hc : Obtained records c) (h : c' ∈ c.inner) : Obtained records c'

variable {records : Set (Datum α)}

/-- The usual registry gives pools without chains. -/
theorem Obtained.of_parse {text : String} {c : Chain α} (h : Chain.parse text = .ok c) :
    c.Obtained records := by
  rw [Chain.parse] at h
  refine .parse (fun node pool hpool => ?_) h
  rw [Registry.builtin_readNode?, ← String.ofList_toList (s := node)] at hpool
  obtain ⟨shape, -, hshape⟩ := Pool.exists_shape?_of_ofNode? hpool
  rw [(Token.Shape.isNode_of_pool? hshape).chains_eq_nil]
  exact fun c hc => absurd hc List.not_mem_nil

/-- A chain that can be had can be a die. -/
theorem Obtained.mem_chains {c : Chain α} (h : c.Obtained records) :
    ∀ c' ∈ (Pool.single (.chain c)).chains, c'.Obtained records := by
  rw [Pool.chains, Die.chains]
  exact List.forall_mem_cons.2 ⟨h, fun c' hc' => .inside h hc'⟩

/-! Faces, intervals and fixed values are dice that a pending link can be told. -/

section

variable {custom : CustomDie → Bounds α} {s : PendingLink α} {c : Chain α}

theorem Obtained.faces {n : Int} (hs : ∀ front ∈ s.previous, front.Obtained records)
    (ha : ∀ c ∈ s.amount.chains, c.Obtained records) (h : s.faces custom n = .ok c) :
    c.Obtained records := by
  obtain ⟨u, -, h⟩ := bind_eq_ok_iff.1 h
  exact .finish hs ha (by rw [Die.chains]; exact fun c hc => absurd hc List.not_mem_nil) h

theorem Obtained.interval {min max : Int} (hs : ∀ front ∈ s.previous, front.Obtained records)
    (ha : ∀ c ∈ s.amount.chains, c.Obtained records) (h : s.interval custom min max = .ok c) :
    c.Obtained records := by
  obtain ⟨u, -, h⟩ := bind_eq_ok_iff.1 h
  exact .finish hs ha (by rw [Die.chains]; exact fun c hc => absurd hc List.not_mem_nil) h

theorem Obtained.fixed {x : α} (hs : ∀ front ∈ s.previous, front.Obtained records)
    (ha : ∀ c ∈ s.amount.chains, c.Obtained records) (h : s.fixed custom x = .ok c) :
    c.Obtained records := by
  obtain ⟨d, hd, h⟩ := bind_eq_ok_iff.1 h
  obtain rfl := Die.ofFixed_eq_ok hd
  exact .finish hs ha (by rw [Die.chains]; exact fun c hc => absurd hc List.not_mem_nil) h

end

/-- The first link is a plus, or it is the first link of a chain in one of the records. -/
def Founded (records : Set (Datum α)) (c : Chain α) : Prop :=
  c.first.operation ≠ .plus → ∃ d ∈ records, ∃ (r : Datum α) (c' : Chain α),
    r.Within d ∧ r.readChain = .ok c' ∧ r.ChainStarts c.first.operation ∧ c'.first = c.first

theorem Founded.of_plus {c : Chain α} (h : c.first.operation = .plus) : c.Founded records :=
  fun hne => absurd h hne

theorem Founded.of_holds {d : Datum α} {c : Chain α} (hd : d ∈ records) (h : d.Holds c) :
    c.Founded records := by
  obtain ⟨r, hr, hc⟩ := h
  exact fun _ => ⟨d, hd, r, c, hr, hc, Datum.chainStarts_of_readChain hc, rfl⟩

/-- The step for each way to have a chain: the chain and those inside are founded. -/
theorem Obtained.founded_and_inner {c : Chain α} (h : c.Obtained records) :
    c.Founded records ∧ ∀ c' ∈ c.inner, c'.Founded records := by
  induction h with
  | ofPool hp ih => exact ⟨.of_plus rfl, fun c hc => (ih c hc).1⟩
  | append op hf hp ihf ihp =>
    refine ⟨ihf.1, ?_⟩
    rw [inner]
    exact List.forall_mem_append.2 ⟨ihf.2, fun c hc => (ihp c hc).1⟩
  | @finish custom s value c hs ha hv h ihs iha ihv =>
    have hpool : ∀ c ∈ (Pool.counted s.amount value).chains, c.Founded records := by
      rw [Pool.chains]
      exact List.forall_mem_append.2 ⟨fun c hc => (iha c hc).1, fun c hc => (ihv c hc).1⟩
    rcases PendingLink.eq_of_die_eq_ok h with ⟨-, rfl⟩ | ⟨front, hfront, rfl⟩
    · exact ⟨.of_plus rfl, hpool⟩
    · obtain ⟨hfirst, hinner⟩ := ihs front hfront
      refine ⟨hfirst, ?_⟩
      rw [inner]
      exact List.forall_mem_append.2 ⟨hinner, hpool⟩
  | parse hr h ih =>
    obtain ⟨hplus, hknown⟩ := Registry.first_of_readChain h
    refine ⟨.of_plus hplus, fun c hc => ?_⟩
    obtain ⟨l, hl, hc⟩ := mem_inner_iff.1 hc
    obtain ⟨node, hnode⟩ := hknown l hl
    exact (ih node l.pool hnode c hc).1
  | @read d c hd h =>
    exact ⟨.of_holds hd ⟨d, .refl d, h⟩, fun c hc => .of_holds hd (Datum.holds_of_readChain h c hc)⟩
  | readDie hd h hc =>
    have hall := fun c hc => Founded.of_holds hd (Datum.holds_of_readDie h c hc)
    exact ⟨hall _ hc, fun c hc' => hall c (Die.inner_subset_of_mem_chains _ hc hc')⟩
  | readPool hd h hc =>
    have hall := fun c hc => Founded.of_holds hd (Datum.holds_of_readPool h c hc)
    exact ⟨hall _ hc, fun c hc' => hall c (Pool.inner_subset_of_mem_chains _ hc hc')⟩
  | readLink hd h hc =>
    have hall := fun c hc => Founded.of_holds hd (Datum.holds_of_readLink h c hc)
    exact ⟨hall _ hc, fun c hc' => hall c (inner_subset_of_mem_inner _ hc hc')⟩
  | inside hc h ih =>
    exact ⟨ih.2 _ h, fun c' hc' => ih.2 c' (inner_subset_of_mem_inner _ h hc')⟩

/-- **The head of a chain is plus, if it is in the records that are read.**  If all chains in
these records start with a plus, and in particular if none is read, then so do all chains that can
be had, and each is known from its links without the first operation, which is what is printed.  A
chain that starts otherwise has its first link from a chain inside one of the records. -/
theorem Obtained.head_eq_plus_of_records {c : Chain α} (h : c.Obtained records) :
    ((∀ d ∈ records, d.HeadsPlus) →
      c.first.operation = .plus ∧ Registry.chainOf? c.links = some c) ∧
    (c.first.operation ≠ .plus → ∃ d ∈ records, ∃ (r : Datum α) (c' : Chain α),
      r.Within d ∧ r.readChain = .ok c' ∧ r.ChainStarts c.first.operation ∧
        c'.first = c.first) := by
  have hfounded : c.Founded records := h.founded_and_inner.1
  refine ⟨fun hplus => ?_, hfounded⟩
  have hfirst : c.first.operation = .plus := by
    by_contra hne
    obtain ⟨d, hd, r, -, hr, -, hstarts, -⟩ := hfounded hne
    exact hne (hplus d hd r _ hr hstarts)
  exact ⟨hfirst, chainOf?_links hfirst⟩

/-- The record of a chain of one `d6`, with an operation of this name in front. -/
def recordedD6 (operation : String) : Datum Float :=
  .fields [("last", .fields [("operation", .text operation),
    ("pool", .fields [("value", .fields [("Uniform", .fields [("min", .integer 1),
      ("max", .integer 6)])]), ("count", .null)]),
    ("previous", .null)])]

theorem readChain_recordedD6 (op : Operation) :
    (recordedD6 op.name).readChain = .ok (.head op (.single (.uniform (.d 6 (by decide))))) := by
  cases op <;> rfl

/-- The record with a plus is that of a stored die. -/
theorem headsPlus_recordedD6 : (recordedD6 "Plus").HeadsPlus := by
  have hstored : (Die.chain (ofDie (.uniform (.d 6 (by decide)))) : Die Float).toDatum? =
      some (.fields [("Chain", recordedD6 "Plus")]) := rfl
  have hpart : ("Chain", recordedD6 "Plus") ∈
      (Datum.fields [("Chain", recordedD6 "Plus")]).parts [] := List.mem_singleton_self _
  have hplus := Die.headsPlus_of_toDatum? hstored (List.forall_mem_singleton.2 rfl)
  exact fun r op hr => hplus r op (.part hr hpart)

/-- The hypotheses of `head_eq_plus_of_records` are satisfiable: an expression times a recorded
chain starts with a plus, and the expression behind a recorded minus starts as it was recorded. -/
theorem head_eq_plus_of_records_d6 :
    let d6 : Pool Float := .single (.uniform (.d 6 (by decide)))
    ∃ parsed product other : Chain Float, Chain.parse "2d6(+1)" = .ok parsed ∧
      product = parsed.append .multiply (.single (.chain (ofPool d6))) ∧
      other = (head .minus d6).append .multiply (.single (.chain parsed)) ∧
      (product.first.operation = .plus ∧ Registry.chainOf? product.links = some product) ∧
      ∃ d ∈ ({recordedD6 "Minus"} : Set (Datum Float)), ∃ (r : Datum Float) (c : Chain Float),
        r.Within d ∧ r.readChain = .ok c ∧ r.ChainStarts other.first.operation ∧
          c.first = other.first := by
  intro d6
  have hread : ((Chain.parse (α := Float) "2d6(+1)").toOption).isSome = true := by decide +kernel
  obtain ⟨parsed, hparsed⟩ := Option.isSome_iff_exists.1 hread
  rw [toOption_eq_some_iff] at hparsed
  have hplus : (ofPool d6).Obtained {recordedD6 "Plus"} := .read rfl (readChain_recordedD6 .plus)
  have hminus : (head .minus d6).Obtained {recordedD6 "Minus"} :=
    .read rfl (readChain_recordedD6 .minus)
  refine ⟨parsed, _, _, hparsed, rfl, rfl, ?_, ?_⟩
  · refine (Obtained.head_eq_plus_of_records
      (.append .multiply (.of_parse hparsed) hplus.mem_chains)).1 ?_
    rintro _ rfl
    exact headsPlus_recordedD6
  · exact (Obtained.head_eq_plus_of_records
      (.append .multiply hminus (Obtained.of_parse hparsed).mem_chains)).2 (by rintro ⟨⟩)

/-- **A head that is not plus is lost.**  The chain of one `d6` with a minus in front is read
from its record, and rolls from minus six to minus one.  It prints as `d6`. -/
theorem not_plus_of_recorded_minus :
    let minus : Chain Float := .head .minus (.single (.uniform (.d 6 (by decide))))
    (recordedD6 "Minus").readChain = .ok minus ∧ minus.Obtained {recordedD6 "Minus"} ∧
      minus.first.operation ≠ .plus ∧ minus.text = "d6" ∧
      (minus.bounds noCustom).high < Scalar.ofInt 0 ∧
      ∃ c : Chain Float, Chain.parse minus.text = .ok c ∧
        Scalar.ofInt 0 < (c.bounds noCustom).low := by
  intro minus
  have htext : minus.text = "d6" := by decide +kernel
  have hhigh : (minus.bounds noCustom).high < Scalar.ofInt 0 := by decide +kernel
  have hread : (Chain.parse (α := Float) "d6").toOption.map
      (fun c => decide ((Scalar.ofInt 0 : Float) < (c.bounds noCustom).low)) = some true := by
    decide +kernel
  obtain ⟨c, hc, hlow⟩ := Option.map_eq_some_iff.1 hread
  rw [toOption_eq_some_iff] at hc
  refine ⟨readChain_recordedD6 .minus, .read rfl (readChain_recordedD6 .minus), by rintro ⟨⟩,
    htext, hhigh, c, ?_, of_decide_eq_true hlow⟩
  rw [htext]
  exact hc

end Chain
end DiceFormula
