/-
# Handles of parsers

Registries stand side by side.  They come up empty, with the usual parser or as clones of others,
and parsers are added to one of them and removed from one of them in any order.  Each registry has
its history, which is what it was asked for and what it answered.  A clone takes the history of its
original along, and from then on each of the two has its own.  The same id may then stand for a
parser of the one and for another parser of the other, so a handle belongs to a history.

A registry is what its history says (`Traced.Told`): the ids that it gave out are `0`, `1`, `2` and
so on, and its parsers are those that were added and not removed since, in the order in which they
were added.  Adding and removing keep this, and a clone has it from its original, so it holds of
every registry that ever comes up.  Therefore its handles are reliable (`reliable_of_mem_run`): they
ascend, a new one was never given out before, one that is registered takes out its own parser and no
other, and one that was taken out is never known again.
-/

import DiceFormula.Expression.Registry
import Mathlib.Data.List.Basic

namespace DiceFormula
namespace Registry

variable {α : Type}

/-- What a registry was asked for, and its answer. -/
inductive Exchange (α : Type) where
  | added (parser : NodeParser α) (id : ParserId)
  | removed (id : ParserId) (found : Bool)

namespace Exchange

/-- The parser that was added, behind its id. -/
def added? : Exchange α → Option (ParserId × NodeParser α)
  | added parser id => some (id, parser)
  | removed _ _ => none

/-- The id of the parser that was taken out. -/
def takenOut? : Exchange α → Option ParserId
  | removed id true => some id
  | _ => none

theorem added?_eq_some_iff {e : Exchange α} {id : ParserId} {parser : NodeParser α} :
    e.added? = some (id, parser) ↔ e = added parser id := by
  cases e with
  | added parser' id' => simp [added?, and_comm]
  | removed id' found => simp [added?]

theorem takenOut?_eq_some_iff {e : Exchange α} {id : ParserId} :
    e.takenOut? = some id ↔ e = removed id true := by
  cases e with
  | added parser' id' => simp [takenOut?]
  | removed id' found => cases found <;> simp [takenOut?]

end Exchange

/-- A registry and its history, first exchange first. -/
structure Traced (α : Type) where
  registry : Registry α
  history : List (Exchange α)

namespace Traced

def empty : Traced α := ⟨.empty, []⟩

def add (t : Traced α) (parser : NodeParser α) : Traced α where
  registry := (t.registry.add parser).2
  history := t.history ++ [.added parser (t.registry.add parser).1]

def remove (t : Traced α) (id : ParserId) : Traced α where
  registry := (t.registry.remove id).2
  history := t.history ++ [.removed id (t.registry.remove id).1]

def builtin [Scalar α] : Traced α := ⟨.builtin, [.added builtinParser builtinId]⟩

/-- The parsers that were added, with their ids. -/
def additions (t : Traced α) : List (ParserId × NodeParser α) := t.history.filterMap Exchange.added?

/-- The ids of the parsers that were taken out. -/
def removals (t : Traced α) : List ParserId := t.history.filterMap Exchange.takenOut?

/-- The handles of a registry with this history can be relied on. -/
structure Reliable (t : Traced α) : Prop where
  increasing : t.registry.ids.Pairwise (·.index < ·.index)
  below : ∀ id ∈ t.registry.ids, id.index < t.registry.nextId
  /-- A parser that is added gets an id that was never given out. -/
  fresh : ∀ parser parser' : NodeParser α,
    .added parser' (t.registry.add parser).1 ∉ t.history
  /-- A parser that is added comes last. -/
  last : ∀ parser : NodeParser α, (t.registry.add parser).2.entries =
    t.registry.entries ++ [((t.registry.add parser).1, parser)]
  /-- An id is found exactly if it is registered. -/
  found_iff : ∀ id, (t.registry.remove id).1 = true ↔ id ∈ t.registry.ids
  /-- Whether it was found shows in the number of parsers. -/
  size_ne_iff : ∀ id,
    (t.registry.remove id).2.size ≠ t.registry.size ↔ (t.registry.remove id).1 = true
  /-- What is taken out is the parser that once got the id, and nothing else changes. -/
  taken : ∀ id ∈ t.registry.ids, ∃ front parser back, .added parser id ∈ t.history ∧
    t.registry.entries = front ++ (id, parser) :: back ∧
    (t.registry.remove id).2 = ⟨front ++ back, t.registry.nextId⟩
  kept : ∀ id ∉ t.registry.ids, (t.registry.remove id).2 = t.registry
  /-- What was taken out is never found again. -/
  gone : ∀ id, .removed id true ∈ t.history → (t.registry.remove id).1 = false

end Traced

/-! ### One registry -/

theorem contains_eq_true_iff {r : Registry α} {id : ParserId} :
    r.contains id = true ↔ id ∈ r.ids := by
  simp [contains, ids]

/-- An unknown id takes nothing out. -/
theorem remove_of_not_mem {r : Registry α} {id : ParserId} (h : id ∉ r.ids) :
    r.remove id = (false, r) := by
  have hnone : r.contains id = false := by
    rw [← Bool.not_eq_true, contains_eq_true_iff]
    exact h
  have hall : r.entries.filter (·.1 != id) = r.entries := by
    refine List.filter_eq_self.2 fun e he => bne_iff_ne.2 ?_
    rintro rfl
    exact h (List.mem_map_of_mem he)
  rw [remove, hnone, hall]

namespace Traced

variable {t : Traced α}

theorem mem_additions_iff {id : ParserId} {parser : NodeParser α} :
    (id, parser) ∈ t.additions ↔ .added parser id ∈ t.history := by
  simp [additions, Exchange.added?_eq_some_iff]

theorem mem_removals_iff {id : ParserId} :
    id ∈ t.removals ↔ .removed id true ∈ t.history := by
  simp [removals, Exchange.takenOut?_eq_some_iff]

theorem additions_add (t : Traced α) (parser : NodeParser α) :
    (t.add parser).additions = t.additions ++ [(⟨t.registry.nextId⟩, parser)] :=
  List.filterMap_append

theorem removals_add (t : Traced α) (parser : NodeParser α) :
    (t.add parser).removals = t.removals :=
  List.filterMap_append.trans (List.append_nil _)

theorem additions_remove (t : Traced α) (id : ParserId) :
    (t.remove id).additions = t.additions :=
  List.filterMap_append.trans (List.append_nil _)

theorem removals_remove (t : Traced α) (id : ParserId) :
    (t.remove id).removals = t.removals ++ if t.registry.contains id then [id] else [] := by
  have happend : (t.remove id).removals =
      t.removals ++ [Exchange.removed id (t.registry.contains id)].filterMap
        (Exchange.takenOut? (α := α)) := List.filterMap_append
  rw [happend]
  cases t.registry.contains id <;> rfl

/-- A registry that is what its history says. -/
structure Told (t : Traced α) : Prop where
  given : t.additions.map (·.1.index) = List.range t.registry.nextId
  taken : ∀ id ∈ t.removals, id.index < t.registry.nextId
  entries_eq : t.registry.entries = t.additions.filter (·.1 ∉ t.removals)

namespace Told

theorem empty : (empty : Traced α).Told := ⟨rfl, by rintro _ ⟨⟩, rfl⟩

/-- The registered ids are some of those that were given out. -/
theorem ids_sublist (h : t.Told) :
    (t.registry.ids.map (·.index)).Sublist (List.range t.registry.nextId) := by
  have hsub : (t.registry.entries.map (·.1.index)).Sublist (t.additions.map (·.1.index)) := by
    rw [h.entries_eq]
    exact List.filter_sublist.map _
  rw [h.given] at hsub
  rwa [ids, List.map_map]

theorem increasing (h : t.Told) : t.registry.ids.Pairwise (·.index < ·.index) :=
  List.pairwise_map.1 (List.pairwise_lt_range.sublist h.ids_sublist)

theorem below (h : t.Told) {id : ParserId} (hid : id ∈ t.registry.ids) :
    id.index < t.registry.nextId :=
  List.mem_range.1 (h.ids_sublist.subset (List.mem_map_of_mem hid))

theorem given_below (h : t.Told) {e : ParserId × NodeParser α} (he : e ∈ t.additions) :
    e.1.index < t.registry.nextId := by
  rw [← List.mem_range, ← h.given]
  exact List.mem_map_of_mem he

theorem not_mem_ids (h : t.Told) {id : ParserId} (hid : id ∈ t.removals) :
    id ∉ t.registry.ids := by
  rw [ids, h.entries_eq]
  simp [hid]

theorem add (h : t.Told) (parser : NodeParser α) : (t.add parser).Told where
  given := by
    rw [additions_add, List.map_append, h.given]
    exact List.range_succ.symm
  taken id hid := by
    rw [removals_add] at hid
    exact Nat.lt_succ_of_lt (h.taken id hid)
  entries_eq := by
    have hnew : (⟨t.registry.nextId⟩ : ParserId) ∉ t.removals :=
      fun hid => Nat.lt_irrefl _ (h.taken _ hid)
    rw [additions_add, removals_add, List.filter_append, ← h.entries_eq]
    simp [Traced.add, Registry.add, hnew]

theorem remove (h : t.Told) (id : ParserId) : (t.remove id).Told where
  given := by
    rw [additions_remove]
    exact h.given
  taken id' hid := by
    rw [removals_remove, List.mem_append] at hid
    rcases hid with hid | hid
    · exact h.taken id' hid
    · rw [List.mem_ite_nil_right, List.mem_singleton, contains_eq_true_iff] at hid
      obtain ⟨hmem, rfl⟩ := hid
      exact h.below hmem
  entries_eq := by
    rw [additions_remove, removals_remove]
    by_cases hmem : id ∈ t.registry.ids
    · rw [if_pos (contains_eq_true_iff.2 hmem)]
      have hentries : (t.remove id).registry.entries = t.registry.entries.filter (·.1 != id) := rfl
      rw [hentries, h.entries_eq, List.filter_filter]
      refine List.filter_congr fun e _ => ?_
      by_cases he : e.1 = id <;> simp [he]
    · have hfound : ¬ t.registry.contains id = true := by rwa [contains_eq_true_iff]
      have hentries : (t.remove id).registry = t.registry := by
        rw [Traced.remove, remove_of_not_mem hmem]
      rw [if_neg hfound, List.append_nil, hentries]
      exact h.entries_eq

/-- A registered parser is between others, all with other ids. -/
theorem exists_entries_eq (h : t.Told) {id : ParserId} (hid : id ∈ t.registry.ids) :
    ∃ front parser back, .added parser id ∈ t.history ∧
      t.registry.entries = front ++ (id, parser) :: back ∧
      (t.registry.remove id).2 = ⟨front ++ back, t.registry.nextId⟩ := by
  obtain ⟨⟨id, parser⟩, hmem, rfl⟩ := List.mem_map.1 hid
  obtain ⟨front, back, hentries⟩ := List.append_of_mem hmem
  have hothers : ∀ e ∈ front ++ back, e.1 ≠ id := by
    have hincreasing := h.increasing
    rw [ids, hentries, List.map_append, List.map_cons, List.pairwise_append,
      List.pairwise_cons] at hincreasing
    obtain ⟨-, ⟨hback, -⟩, hfront⟩ := hincreasing
    rintro e he rfl
    rcases List.mem_append.1 he with he | he
    · exact Nat.lt_irrefl _ (hfront e.1 (List.mem_map_of_mem he) e.1 List.mem_cons_self)
    · exact Nat.lt_irrefl _ (hback e.1 (List.mem_map_of_mem he))
  have hfilter : t.registry.entries.filter (·.1 != id) = front ++ back := by
    have hself : ((id, parser) :: back).filter (·.1 != id) = back.filter (·.1 != id) :=
      List.filter_cons_of_neg (by simp)
    rw [hentries, List.filter_append, hself, ← List.filter_append]
    exact List.filter_eq_self.2 fun e he => bne_iff_ne.2 (hothers e he)
  have hgiven : (id, parser) ∈ t.additions := by
    rw [h.entries_eq] at hmem
    exact (List.mem_filter.1 hmem).1
  refine ⟨front, parser, back, mem_additions_iff.1 hgiven, hentries, ?_⟩
  rw [Registry.remove, hfilter]

/-- **A registry that is what its history says has reliable handles.** -/
theorem reliable (h : t.Told) : t.Reliable where
  increasing := h.increasing
  below _ hid := h.below hid
  fresh parser parser' hmem := Nat.lt_irrefl _ (h.given_below (mem_additions_iff.2 hmem))
  last _ := rfl
  found_iff _ := contains_eq_true_iff
  size_ne_iff id := by
    by_cases hid : id ∈ t.registry.ids
    · obtain ⟨front, parser, back, -, hentries, hremove⟩ := h.exists_entries_eq hid
      refine iff_of_true ?_ (contains_eq_true_iff.2 hid)
      simp [hremove, size, hentries]
    · simp [remove_of_not_mem hid]
  taken _ hid := h.exists_entries_eq hid
  kept _ hid := by rw [remove_of_not_mem hid]
  gone _ hid := by rw [remove_of_not_mem (h.not_mem_ids (mem_removals_iff.2 hid))]

end Told
end Traced

/-! ### Registries side by side -/

/-- What is done with registries, which are numbered in the order in which they come up. -/
inductive Command (α : Type) where
  | empty
  | builtin
  | clone (i : ℕ)
  | add (i : ℕ) (parser : NodeParser α)
  | remove (i : ℕ) (id : ParserId)

variable [Scalar α]

/-- The registries after a command.  Nothing is done to a registry that is not there. -/
def perform (ts : List (Traced α)) : Command α → List (Traced α)
  | .empty => ts ++ [.empty]
  | .builtin => ts ++ [.builtin]
  | .clone i => ts ++ ts[i]?.toList
  | .add i parser => ts.modify i (·.add parser)
  | .remove i id => ts.modify i (·.remove id)

/-- The registries after some commands. -/
def run (commands : List (Command α)) : List (Traced α) := commands.foldl perform []

open Traced in
/-- **A command keeps all registries what their histories say.** -/
theorem told_perform {ts : List (Traced α)} (h : ∀ t ∈ ts, t.Told) (command : Command α) :
    ∀ t ∈ perform ts command, t.Told := by
  have modified : ∀ (i : ℕ) (f : Traced α → Traced α), (∀ t : Traced α, t.Told → (f t).Told) →
      ∀ t ∈ ts.modify i f, t.Told := by
    intro i f hf t ht
    obtain ⟨j, hj⟩ := List.mem_iff_getElem?.1 ht
    rw [List.getElem?_modify] at hj
    obtain ⟨u, hu, rfl⟩ := Option.map_eq_some_iff.1 hj
    have htold := h u (List.mem_of_getElem? hu)
    split_ifs
    · exact hf u htold
    · exact htold
  cases command with
  | empty => exact List.forall_mem_append.2 ⟨h, List.forall_mem_singleton.2 .empty⟩
  | builtin =>
    exact List.forall_mem_append.2 ⟨h, List.forall_mem_singleton.2 (Told.empty.add builtinParser)⟩
  | clone i =>
    refine List.forall_mem_append.2 ⟨h, fun t ht => ?_⟩
    exact h t (List.mem_of_getElem? (Option.mem_toList.1 ht))
  | add i parser => exact modified i _ fun t ht => ht.add parser
  | remove i id => exact modified i _ fun t ht => ht.remove id

theorem told_of_mem_run {commands : List (Command α)} {t : Traced α} (h : t ∈ run commands) :
    t.Told := by
  have hfold : ∀ ts : List (Traced α), (∀ t ∈ ts, t.Told) →
      ∀ t ∈ commands.foldl perform ts, t.Told := by
    clear h
    induction commands with
    | nil => exact fun ts hts => hts
    | cons command commands ih => exact fun ts hts => ih _ (told_perform hts command)
  exact hfold [] (by rintro _ ⟨⟩) t h

/-- **Handles are reliable.**  Whatever is done with registries that stand side by side, made new or
cloned, the ids of each ascend and lie below the next one.  A parser that is added gets an id that
the registry never gave out in its history, and comes last.  An id takes a parser out exactly if it
is registered, then that parser and nothing else, and is never known again. -/
theorem reliable_of_mem_run {commands : List (Command α)} {t : Traced α} (h : t ∈ run commands) :
    t.Reliable :=
  (told_of_mem_run h).reliable

/-- A parser that knows no text. -/
def silent : NodeParser α := fun _ => .decline

/-- The hypothesis of `reliable_of_mem_run` is satisfiable: a clone takes out the parser that it has
from its original, which keeps it, and gets another one. -/
theorem reliable_of_mem_run_clone :
    let commands : List (Command Rat) :=
      [.builtin, .add 0 silent, .clone 0, .remove 1 ⟨1⟩, .add 1 silent, .remove 0 ⟨0⟩]
    ∃ original clone : Traced Rat, run commands = [original, clone] ∧
      original.registry.ids = [⟨1⟩] ∧ clone.registry.ids = [⟨0⟩, ⟨2⟩] ∧
      original.Reliable ∧ clone.Reliable ∧ (clone.registry.remove ⟨1⟩).1 = false := by
  intro commands
  obtain ⟨original, clone, hrun, horiginal, hclone, hremoved⟩ :
      ∃ original clone : Traced Rat, run commands = [original, clone] ∧
        original.registry.ids = [⟨1⟩] ∧ clone.registry.ids = [⟨0⟩, ⟨2⟩] ∧
        .removed ⟨1⟩ true ∈ clone.history :=
    ⟨_, _, rfl, rfl, rfl, .tail _ (.tail _ (.head _))⟩
  have reliable : ∀ t ∈ [original, clone], t.Reliable :=
    fun t ht => reliable_of_mem_run (hrun ▸ ht)
  obtain ⟨ho, hc, -⟩ := List.forall_mem_cons.1 reliable |>.imp_right List.forall_mem_cons.1
  exact ⟨original, clone, hrun, horiginal, hclone, ho, hc, hc.gone ⟨1⟩ hremoved⟩

end Registry
end DiceFormula
