/-
# Properties that pass from parts to the whole

A property of recipes is compositional if the recipes that do nothing but succeed, fail or note
something have it, and a recipe that is put together from recipes that have it has it as well,
whatever their results are.  What is only said about results is not of this kind, but what is said
about the draws of a run is.

Repetition and lists of results come from `>>=` alone, and a die is put together from its leaves, in
its counts as in its values.  So a die has a compositional property if the draws of its intervals
and its custom dice have it (`Die.roll_of_leaves`), and so have pools whose rolls are kept apart and
chains that are rolled step by step.
-/

import DiceFormula.Proofs.Die.Parts
import DiceFormula.Roll.Step

namespace DiceFormula

variable {σ α β γ : Type} {Q : (β : Type) → RollM σ α β → Prop}

/-- A property that a recipe has if its parts have it. -/
structure RollM.Compositional (Q : (β : Type) → RollM σ α β → Prop) : Prop where
  pure : ∀ {β : Type} (b : β), Q β (Pure.pure b)
  fail : ∀ {β : Type} (e : RollError α), Q β (RollM.fail e)
  note : ∀ n : Note α, Q Unit (RollM.note n)
  bind : ∀ {β γ : Type} {x : RollM σ α β} {f : β → RollM σ α γ},
    Q β x → (∀ b, Q γ (f b)) → Q γ (x >>= f)

/-! ### Repetition -/

namespace RollM.Compositional

theorem times (hQ : Compositional Q) {f : β → RollM σ α β} (step : ∀ b, Q β (f b)) (n : Nat) :
    ∀ b, Q β (RollM.times f n b) := by
  induction n with
  | zero => exact fun b => hQ.pure b
  | succ n ih =>
    intro b
    rw [times_succ]
    exact hQ.bind (step b) ih

theorem fold (hQ : Compositional Q) {f : β → γ → RollM σ α β} {cs : List γ}
    (step : ∀ c ∈ cs, ∀ b, Q β (f b c)) : ∀ b, Q β (RollM.fold f cs b) := by
  induction cs with
  | nil => exact fun b => hQ.pure b
  | cons c cs ih =>
    obtain ⟨hc, hcs⟩ := List.forall_mem_cons.1 step
    intro b
    rw [fold_cons]
    exact hQ.bind (hc b) (ih hcs)

theorem collect (hQ : Compositional Q) {x : RollM σ α β} (hx : Q β x) (n : Nat) :
    Q (List β) (RollM.collect n x) :=
  hQ.bind (hQ.times (fun _ => hQ.bind hx fun _ => hQ.pure _) n []) fun _ => hQ.pure _

theorem collectMap (hQ : Compositional Q) {f : γ → RollM σ α β} {cs : List γ}
    (hf : ∀ c ∈ cs, Q β (f c)) : Q (List β) (RollM.collectMap f cs) :=
  hQ.bind (hQ.fold (fun c hc _ => hQ.bind (hf c hc) fun _ => hQ.pure _) []) fun _ => hQ.pure _

theorem total [Scalar α] (hQ : Compositional Q) {x : RollM σ α α} (hx : Q α x) (n : Nat) :
    Q α (RollM.total n x) :=
  hQ.times (fun _ => hQ.bind hx fun _ => hQ.pure _) n _

end RollM.Compositional

/-! ### Dice -/

open RollM (Compositional)

variable [Scalar α] {t : Table σ α}

/-- The draws of the intervals and the custom dice in a list have a property. -/
structure Table.LeavesHave (t : Table σ α) (Q : (β : Type) → RollM σ α β → Prop)
    (leaves : List (Die α)) : Prop where
  uniform : ∀ u, .uniform u ∈ leaves → Q Int (t.draw u.min (u.max + 1))
  custom : ∀ k, .custom k ∈ leaves → Q α (t.rollCustom k)

theorem Table.LeavesHave.mono {leaves leaves' : List (Die α)} (h : t.LeavesHave Q leaves)
    (hsub : leaves' ⊆ leaves) : t.LeavesHave Q leaves' :=
  ⟨fun u hu => h.uniform u (hsub hu), fun k hk => h.custom k (hsub hk)⟩

namespace Pool

theorem totalOf_of_value (hQ : Compositional Q) (p : Pool α) (n : Nat) {value : RollM σ α α}
    (hv : Q α value) : Q (α × Nat) (p.totalOf n value) :=
  hQ.bind (hQ.total hv n) fun _ => hQ.bind (hQ.note _) fun _ => hQ.pure _

theorem resolve_of_count (hQ : Compositional Q) (p : Pool α) {count : RollM σ α α}
    (hc : Q α count) : Q Nat (p.resolve count) := by
  refine hQ.bind hc fun x => ?_
  split
  · exact hQ.pure _
  · exact hQ.fail _

end Pool

theorem joinLinks_of_links (hQ : Compositional Q)
    {links : List (Operation × RollM σ α (α × Nat))} (h : ∀ link ∈ links, Q _ link.2) :
    Q α (joinLinks links) :=
  hQ.bind (hQ.fold (fun link hlink _ => hQ.bind (h link hlink) fun _ =>
    hQ.bind (hQ.note _) fun _ => hQ.pure _) _) fun _ => hQ.pure _

mutual

/-- **A die has a compositional property if its leaves have it.** -/
theorem Die.roll_of_leaves (hQ : Compositional Q) :
    ∀ d : Die α, t.LeavesHave Q d.leaves → Q α (d.roll t)
  | .fixed value, _ => by
    rw [Die.roll]
    exact hQ.pure value
  | .uniform u, h => by
    rw [Die.leaves] at h
    rw [Die.roll]
    exact hQ.bind (h.uniform u (List.mem_singleton_self _)) fun n => hQ.pure _
  | .pool p, h => by
    rw [Die.leaves] at h
    rw [Die.roll]
    exact hQ.bind (Pool.rollCounted_of_leaves hQ p h) fun r => hQ.pure _
  | .link c, h | .chain c, h => by
    rw [Die.leaves] at h
    rw [Die.roll]
    exact joinLinks_of_links hQ (Chain.rollsOnto_of_leaves hQ c h (List.forall_mem_nil _))
  | .custom k, h => by
    rw [Die.leaves] at h
    rw [Die.roll]
    exact h.custom k (List.mem_singleton_self _)

@[inherit_doc Die.roll_of_leaves]
theorem Pool.rollCounted_of_leaves (hQ : Compositional Q) :
    ∀ p : Pool α, t.LeavesHave Q p.leaves → Q (α × Nat) (p.rollCounted t)
  | .single value, h => by
    rw [Pool.leaves] at h
    rw [Pool.rollCounted]
    exact Pool.totalOf_of_value hQ _ 1 (Die.roll_of_leaves hQ value h)
  | .counted count value, h => by
    rw [Pool.leaves] at h
    rw [Pool.rollCounted]
    have hcount := Die.roll_of_leaves hQ count (h.mono (List.subset_append_left _ _))
    have hvalue := Die.roll_of_leaves hQ value (h.mono (List.subset_append_right _ _))
    exact hQ.bind (Pool.resolve_of_count hQ _ hcount) fun n =>
      Pool.totalOf_of_value hQ _ n hvalue

theorem Chain.rollsOnto_of_leaves (hQ : Compositional Q) :
    ∀ (c : Chain α) {rest : List (Operation × RollM σ α (α × Nat))},
      t.LeavesHave Q c.leaves → (∀ link ∈ rest, Q (α × Nat) link.2) →
        ∀ link ∈ c.rollsOnto t rest, Q (α × Nat) link.2
  | .head op p, rest, h, hrest => by
    rw [Chain.leaves] at h
    rw [Chain.rollsOnto]
    exact List.forall_mem_cons.2 ⟨Pool.rollCounted_of_leaves hQ p h, hrest⟩
  | .append front op p, rest, h, hrest => by
    rw [Chain.leaves] at h
    rw [Chain.rollsOnto]
    have hpool := Pool.rollCounted_of_leaves hQ p (h.mono (List.subset_append_right _ _))
    exact Chain.rollsOnto_of_leaves hQ front (h.mono (List.subset_append_left _ _))
      (List.forall_mem_cons.2 ⟨hpool, hrest⟩)

end

namespace Pool

variable {p : Pool α}

theorem roll_of_leaves (hQ : Compositional Q) (h : t.LeavesHave Q p.leaves) : Q α (p.roll t) :=
  hQ.bind (rollCounted_of_leaves hQ p h) fun _ => hQ.pure _

theorem rollCount_of_leaves (hQ : Compositional Q) (h : t.LeavesHave Q p.leaves) :
    Q Nat (p.rollCount t) := by
  cases p with
  | single value => exact hQ.pure 1
  | counted count value =>
    rw [leaves] at h
    exact resolve_of_count hQ _ (count.roll_of_leaves hQ (h.mono (List.subset_append_left _ _)))

theorem rollSeparately_of_leaves (hQ : Compositional Q) (h : t.LeavesHave Q p.leaves) :
    Q (Rolls α) (p.rollSeparately t) := by
  have hvalue : Q α (p.value.roll t) := p.value.roll_of_leaves hQ (h.mono p.leaves_value_subset)
  refine hQ.bind (rollCount_of_leaves hQ h) fun n => hQ.bind (hQ.collect hvalue n) fun rolls =>
    hQ.bind (hQ.note _) fun _ => ?_
  split
  · exact hQ.pure _
  · exact hQ.fail _

end Pool

namespace Chain

variable {c : Chain α}

theorem roll_of_leaves (hQ : Compositional Q) (h : t.LeavesHave Q c.leaves) : Q α (c.roll t) := by
  rw [← Die.roll_chain]
  exact Die.roll_of_leaves hQ (.chain c) (by rwa [Die.leaves])

theorem rollSteps_of_leaves (hQ : Compositional Q) (h : t.LeavesHave Q c.leaves) :
    Q (Transcript α) (c.rollSteps t) := by
  refine hQ.bind (hQ.collectMap fun l hl => ?_) fun _ => hQ.pure _
  have hpool := l.pool.rollSeparately_of_leaves hQ (h.mono (leaves_subset_of_mem_links hl))
  exact hQ.bind hpool fun _ => hQ.pure _

end Chain
end DiceFormula
