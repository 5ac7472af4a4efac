/-
# Exploding rolls unfold depth first

`HouseRule.explode` goes through a list of rolls and, behind each roll that calls for more, first
through those that are added.  A loop with a single list of pending rolls does the same: it takes
the first of them, puts it out, and if it calls for more puts a new batch in front of the pending
ones (`HouseRule.Unfolds`).  Whatever adds the rolls, `explode` ends for some depth just if the
loop ends, and with the same run (`HouseRule.explode_unfolds`).

A recursion is suspended in the middle of a list while it goes through the rolls that one entry of
it added.  So the two are compared at a stack of lists, `HouseRule.resume`, of which the innermost
comes first; the loop sees them joined to one.  What a recursion of some depth does without
reaching its limit, a deeper one does too (`RollM.Prolongs`).

What the loop puts out can be told by origin, which is either the initial list or one of the
batches (`HouseRule.Traced`): each batch is put out in order, and begins behind the roll that
called for it (`HouseRule.Places`).
-/

import DiceFormula.Proofs.Roll.Outcome
import DiceFormula.Roll.HouseRule
import Mathlib.Data.List.Count
import Mathlib.Tactic.SplitIfs

namespace DiceFormula

variable {σ α β γ : Type}

/-- The same run, of a recipe that may be cut short but was not. -/
def Run.uncut (r : Run σ α β) : Run σ α (Option β) := ⟨r.outcome.map some, r.state, r.events⟩

namespace RollM

/-- Goes on with a result, if there is one. -/
def orNone (f : γ → RollM σ α (Option β)) : Option γ → RollM σ α (Option β)
  | none => pure none
  | some c => f c

/-- `y` does whatever `x` does where `x` is not cut short. -/
def Prolongs (y x : RollM σ α (Option β)) : Prop := ∀ s, (x s).outcome ≠ .ok none → y s = x s

namespace Prolongs

theorem refl (x : RollM σ α (Option β)) : Prolongs x x := fun _ _ => rfl

theorem bind (x : RollM σ α γ) {f g : γ → RollM σ α (Option β)} (h : ∀ c, Prolongs (g c) (f c)) :
    Prolongs (x >>= g) (x >>= f) := by
  intro s hs
  rw [bind_apply] at hs ⊢
  rw [bind_apply]
  rcases hx : x s with ⟨e | c, s', es⟩
  · rfl
  · rw [hx] at hs
    exact congrArg (Run.after · es) (h c s' hs)

theorem orNone {x y : RollM σ α (Option γ)} {f g : γ → RollM σ α (Option β)} (h : Prolongs y x)
    (hfg : ∀ c, Prolongs (g c) (f c)) : Prolongs (y >>= RollM.orNone g) (x >>= RollM.orNone f) := by
  intro s hs
  have hcut : (x s).outcome ≠ .ok none := by
    intro hx
    rw [bind_apply] at hs
    rcases hrun : x s with ⟨e | c, s', es⟩ <;> rw [hrun] at hx
    · cases hx
    · cases hx
      rw [hrun] at hs
      exact hs rfl
  have hsome : ∀ c : Option γ, Prolongs (RollM.orNone g c) (RollM.orNone f c) := by
    rintro (_ | c)
    · exact refl _
    · exact hfg c
  have hx := bind x hsome s hs
  rw [bind_apply, h s hcut, ← bind_apply]
  exact hx

end Prolongs
end RollM

namespace HouseRule

open RollM

/-- **The loop with a list of pending rolls.**  `Unfolds calls more out pending s r` says that from
the state `s`, with `out` put out so far, it ends with the run `r`.  Each round takes the first
pending roll and puts it out; one that calls for more puts a batch in front of those that are still
pending, unless there is an error. -/
inductive Unfolds (calls : α → Bool) (more : RollM σ α (List α)) :
    List α → List α → σ → Run σ α (List α) → Prop where
  | finish (out s) : Unfolds calls more out [] s ⟨.ok out, s, []⟩
  | keep {out roll pending s r} (h : calls roll = false)
      (rounds : Unfolds calls more (out ++ [roll]) pending s r) :
      Unfolds calls more out (roll :: pending) s r
  | refill {out roll pending s batch s' es r} (h : calls roll = true)
      (hmore : more s = ⟨.ok batch, s', es⟩)
      (rounds : Unfolds calls more (out ++ [roll]) (batch ++ pending) s' r) :
      Unfolds calls more out (roll :: pending) s (r.after es)
  | fail {out roll pending s e s' es} (h : calls roll = true)
      (hmore : more s = ⟨.error e, s', es⟩) :
      Unfolds calls more out (roll :: pending) s ⟨.error e, s', es⟩

variable {calls : α → Bool} {more : RollM σ α (List α)}

/-! ### The recursion -/

theorem explodeOnto_nil (calls : α → Bool) (more : RollM σ α (List α)) (depth : ℕ)
    (done : List α) : explodeOnto calls more (depth + 1) done [] = pure (some done) := by
  rw [explodeOnto, fold_nil]

theorem fold_none {f : Option β → γ → RollM σ α (Option β)} (h : ∀ c, f none c = pure none)
    (cs : List γ) : fold f cs none = pure none := by
  induction cs with
  | nil => rfl
  | cons c cs ih => rw [fold_cons, h, pure_bind, ih]

theorem explodeOnto_cons (calls : α → Bool) (more : RollM σ α (List α)) (depth : ℕ)
    (done : List α) (roll : α) (rolls : List α) :
    explodeOnto calls more (depth + 1) done (roll :: rolls) =
      (if calls roll then more >>= explodeOnto calls more depth (roll :: done)
        else pure (some (roll :: done))) >>=
      orNone fun done => explodeOnto calls more (depth + 1) done rolls := by
  rw [explodeOnto, fold_cons]
  refine bind_congr fun done? => ?_
  cases done? with
  | none => exact fold_none (fun _ => rfl) rolls
  | some done => rw [orNone, explodeOnto]

theorem explodeOnto_keep {roll : α} (h : calls roll = false) (depth : ℕ) (done rolls : List α) :
    explodeOnto calls more (depth + 1) done (roll :: rolls) =
      explodeOnto calls more (depth + 1) (roll :: done) rolls := by
  rw [explodeOnto_cons, if_neg (by rw [h]; exact Bool.false_ne_true), pure_bind, orNone]

theorem explodeOnto_call {roll : α} (h : calls roll = true) (depth : ℕ) (done rolls : List α) :
    explodeOnto calls more (depth + 1) done (roll :: rolls) =
      more >>= fun batch => explodeOnto calls more depth (roll :: done) batch >>=
        orNone fun done => explodeOnto calls more (depth + 1) done rolls := by
  rw [explodeOnto_cons, if_pos h, bind_assoc]

/-- **A deeper recursion does the same,** unless the limit was reached. -/
theorem explodeOnto_succ_prolongs (depth : ℕ) : ∀ done rolls : List α,
    Prolongs (explodeOnto calls more (depth + 1) done rolls)
      (explodeOnto calls more depth done rolls) := by
  induction depth with
  | zero => exact fun done rolls s hs => absurd rfl hs
  | succ depth ih =>
    intro done rolls
    induction rolls generalizing done with
    | nil =>
      rw [explodeOnto_nil, explodeOnto_nil]
      exact .refl _
    | cons roll rolls ihrolls =>
      rw [explodeOnto_cons, explodeOnto_cons]
      refine Prolongs.orNone ?_ ihrolls
      split_ifs
      · exact .bind more fun batch => ih (roll :: done) batch
      · exact .refl _

/-! ### A stack of suspended loops -/

/-- Goes through the rolls that are left in each of the loops, the innermost first. -/
def resume (calls : α → Bool) (more : RollM σ α (List α)) (depth : ℕ) :
    List (List α) → List α → RollM σ α (Option (List α))
  | [], done => pure (some done)
  | rolls :: stack, done =>
    explodeOnto calls more depth done rolls >>=
      orNone fun done => resume calls more depth stack done

theorem resume_succ_prolongs (calls : α → Bool) (more : RollM σ α (List α)) (depth : ℕ)
    (stack : List (List α)) : ∀ done : List α,
    Prolongs (resume calls more (depth + 1) stack done) (resume calls more depth stack done) := by
  induction stack with
  | nil => exact fun done => .refl _
  | cons rolls stack ih => exact fun done => (explodeOnto_succ_prolongs depth done rolls).orNone ih

theorem resume_singleton (depth : ℕ) (rolls done : List α) :
    resume calls more depth [rolls] done = explodeOnto calls more depth done rolls := by
  rw [resume]
  nth_rewrite 2 [← bind_pure (explodeOnto calls more depth done rolls)]
  refine bind_congr fun done? => ?_
  cases done? <;> rfl

theorem resume_nil_cons (depth : ℕ) (stack : List (List α)) (done : List α) :
    resume calls more (depth + 1) ([] :: stack) done =
      resume calls more (depth + 1) stack done := by
  rw [resume, explodeOnto_nil, pure_bind, orNone]

theorem resume_keep {roll : α} (h : calls roll = false) (depth : ℕ) (rolls : List α)
    (stack : List (List α)) (done : List α) :
    resume calls more (depth + 1) ((roll :: rolls) :: stack) done =
      resume calls more (depth + 1) (rolls :: stack) (roll :: done) := by
  rw [resume, resume, explodeOnto_keep h]

/-- What a roll calls for is gone through before what is left of its own loop. -/
theorem resume_call {roll : α} (h : calls roll = true) (depth : ℕ) (rolls : List α)
    (stack : List (List α)) (done : List α) :
    resume calls more (depth + 1) ((roll :: rolls) :: stack) done =
      more >>= fun batch => explodeOnto calls more depth (roll :: done) batch >>=
        orNone fun done => resume calls more (depth + 1) (rolls :: stack) done := by
  rw [resume, explodeOnto_call h, bind_assoc]
  refine bind_congr fun batch => ?_
  rw [bind_assoc]
  refine bind_congr fun done? => ?_
  cases done? with
  | none => exact pure_bind _ _
  | some done => rfl

theorem resume_of_flatten_eq_nil {stack : List (List α)} (h : stack.flatten = []) (depth : ℕ)
    (done : List α) : resume calls more (depth + 1) stack done = pure (some done) := by
  induction stack with
  | nil => rfl
  | cons rolls stack ih =>
    rw [List.flatten_cons, List.append_eq_nil_iff] at h
    rw [h.1, resume_nil_cons, ih h.2]

/-- Loops that are through are left behind. -/
theorem exists_resume_eq_of_flatten_eq_cons {roll : α} {pending : List α} {stack : List (List α)}
    (h : stack.flatten = roll :: pending) :
    ∃ rolls stack', (rolls :: stack').flatten = pending ∧ ∀ depth done,
      resume calls more (depth + 1) stack done =
        resume calls more (depth + 1) ((roll :: rolls) :: stack') done := by
  induction stack with
  | nil => cases h
  | cons rolls stack ih =>
    cases rolls with
    | nil =>
      obtain ⟨rolls, stack', hflatten, hresume⟩ := ih h
      refine ⟨rolls, stack', hflatten, fun depth done => ?_⟩
      rw [resume_nil_cons, hresume]
    | cons roll' rolls =>
      obtain ⟨rfl, hflatten⟩ := List.cons.inj h
      exact ⟨rolls, stack, hflatten, fun _ _ => rfl⟩

/-! ### The loop and the recursion -/

/-- The run of the recursion for a run of the loop: it lists rolls backwards. -/
def backwards (r : Run σ α (List α)) : Run σ α (Option (List α)) :=
  ⟨r.outcome.map fun out => some out.reverse, r.state, r.events⟩

theorem backwards_outcome_ne (r : Run σ α (List α)) : (backwards r).outcome ≠ .ok none := by
  rcases r with ⟨_ | out, s, es⟩ <;> rintro ⟨⟩

theorem backwards_after (r : Run σ α (List α)) (es : List (Event α)) :
    backwards (r.after es) = (backwards r).after es := rfl

/-- **What the loop does a recursion of some depth does,** wherever it is suspended. -/
theorem Unfolds.exists_resume {out pending : List α} {s : σ} {r : Run σ α (List α)}
    (h : Unfolds calls more out pending s r) : ∀ stack done, stack.flatten = pending →
      done.reverse = out → ∃ depth, resume calls more (depth + 1) stack done s = backwards r := by
  induction h with
  | finish out s =>
    rintro stack done hstack rfl
    refine ⟨0, ?_⟩
    rw [resume_of_flatten_eq_nil hstack, pure_apply, backwards, Except.map, List.reverse_reverse]
  | keep hcalls rounds ih =>
    rintro stack done hstack rfl
    obtain ⟨rolls, stack', hflatten, hresume⟩ := exists_resume_eq_of_flatten_eq_cons hstack
    obtain ⟨depth, hdepth⟩ := ih (rolls :: stack') (_ :: done) hflatten List.reverse_cons
    refine ⟨depth, ?_⟩
    rw [hresume, resume_keep hcalls, hdepth]
  | @refill out roll pending s batch s' es r hcalls hmore rounds ih =>
    rintro stack done hstack rfl
    obtain ⟨rolls, stack', hflatten, hresume⟩ := exists_resume_eq_of_flatten_eq_cons hstack
    obtain ⟨depth, hdepth⟩ := ih (batch :: rolls :: stack') (roll :: done)
      (by rw [List.flatten_cons, hflatten]) List.reverse_cons
    -- The loops that were suspended before go one level deeper.
    have hprolongs := Prolongs.orNone
      (.refl (explodeOnto calls more (depth + 1) (roll :: done) batch))
      (resume_succ_prolongs calls more (depth + 1) (rolls :: stack')) s'
    rw [resume] at hdepth
    rw [hdepth] at hprolongs
    refine ⟨depth + 1, ?_⟩
    rw [hresume, resume_call hcalls, bind_apply, hmore, backwards_after]
    exact congrArg (Run.after · es) (hprolongs (backwards_outcome_ne r))
  | fail hcalls hmore =>
    rintro stack done hstack rfl
    obtain ⟨rolls, stack', -, hresume⟩ := exists_resume_eq_of_flatten_eq_cons hstack
    refine ⟨0, ?_⟩
    rw [hresume, resume_call hcalls, bind_apply, hmore]
    rfl

/-- What the loop does with `pending` after a recursion that was not cut short. -/
inductive Continues (calls : α → Bool) (more : RollM σ α (List α)) (pending : List α) :
    Run σ α (Option (List α)) → Run σ α (List α) → Prop where
  | ok {done s es r} (h : Unfolds calls more done.reverse pending s r) :
      Continues calls more pending ⟨.ok (some done), s, es⟩ (r.after es)
  | error (e s es) : Continues calls more pending ⟨.error e, s, es⟩ ⟨.error e, s, es⟩

theorem Continues.exists_of_after {pending : List α} {x : Run σ α (Option (List α))}
    {r : Run σ α (List α)} {es : List (Event α)} (h : Continues calls more pending (x.after es) r) :
    ∃ r', r = r'.after es ∧ Continues calls more pending x r' := by
  rcases x with ⟨e | _ | done, s, fs⟩
  · cases h
    exact ⟨_, rfl, .error e s fs⟩
  · cases h
  · cases h with
    | ok h => exact ⟨_, (Run.after_after _ fs es).symm, .ok h⟩

/-- **What a recursion does the loop does,** with whatever is pending behind its rolls. -/
theorem Continues.unfolds {pending : List α} (depth : ℕ) : ∀ (done rolls : List α) (s : σ)
    (r : Run σ α (List α)),
    Continues calls more pending (explodeOnto calls more depth done rolls s) r →
      Unfolds calls more done.reverse (rolls ++ pending) s r := by
  induction depth generalizing pending with
  | zero =>
    intro done rolls s r h
    cases h
  | succ depth ih =>
    intro done rolls
    induction rolls generalizing done with
    | nil =>
      intro s r h
      rw [explodeOnto_nil, pure_apply] at h
      cases h with
      | ok h =>
        rw [Run.after_nil]
        exact h
    | cons roll rolls ihrolls =>
      intro s r h
      cases hcalls : calls roll with
      | false =>
        rw [explodeOnto_keep hcalls] at h
        have hrounds := ihrolls (roll :: done) s r h
        rw [List.reverse_cons] at hrounds
        exact .keep hcalls hrounds
      | true =>
        rw [explodeOnto_call hcalls, bind_apply] at h
        rcases hmore : more s with ⟨e | batch, s', es⟩
        · rw [hmore] at h
          cases h
          exact .fail hcalls hmore
        · rw [hmore] at h
          obtain ⟨r, rfl, hrest⟩ := h.exists_of_after
          refine .refill hcalls hmore ?_
          rw [← List.reverse_cons]
          refine ih (roll :: done) batch s' r ?_
          rw [bind_apply] at hrest
          rcases hbatch : explodeOnto calls more depth (roll :: done) batch s'
            with ⟨e | _ | done', t, fs⟩
          · rw [hbatch] at hrest
            cases hrest
            exact .error e t fs
          · rw [hbatch] at hrest
            cases hrest
          · rw [hbatch] at hrest
            obtain ⟨r, rfl, hrolls⟩ := hrest.exists_of_after
            exact .ok (ihrolls done' t r hrolls)

theorem explode_apply (depth : ℕ) (rolls : List α) (calls : α → Bool) (more : RollM σ α (List α))
    (s : σ) : explode depth rolls calls more s =
      ⟨(explodeOnto calls more depth [] rolls s).outcome.map (Option.map List.reverse),
        (explodeOnto calls more depth [] rolls s).state,
        (explodeOnto calls more depth [] rolls s).events⟩ := by
  rw [explode, bind_apply]
  rcases explodeOnto calls more depth [] rolls s with ⟨e | done, t, es⟩ <;> rfl

/-- **The recursion does what the loop does,** if it is deep enough. -/
theorem exists_explode_eq_iff {rolls : List α} {s : σ} {r : Run σ α (List α)} :
    (∃ depth, explode depth rolls calls more s = r.uncut) ↔ Unfolds calls more [] rolls s r := by
  constructor
  · rintro ⟨depth, h⟩
    rw [explode_apply] at h
    have hcontinues : Continues calls more [] (explodeOnto calls more depth [] rolls s) r := by
      rcases r with ⟨e | out, t, es⟩ <;>
        rcases hx : explodeOnto calls more depth [] rolls s with ⟨e' | _ | done, t', es'⟩ <;>
        rw [hx] at h <;> cases h
      · exact .error _ _ _
      · exact .ok (.finish _ _)
    have hrolls := hcontinues.unfolds
    rwa [List.append_nil] at hrolls
  · intro h
    obtain ⟨depth, hdepth⟩ := h.exists_resume [rolls] [] (by simp) rfl
    refine ⟨depth + 1, ?_⟩
    rw [resume_singleton] at hdepth
    rw [explode_apply, hdepth]
    rcases r with ⟨e | out, t, es⟩
    · rfl
    · simp only [backwards, Run.uncut, Except.map, Option.map_some, List.reverse_reverse]

/-! ### Rolls by origin -/

/-- Hands out the batches of a sequence one after the other.  The state counts the calls. -/
def supply (batches : ℕ → Except (RollError α) (List α)) : RollM ℕ α (List α) :=
  fun k => ⟨batches k, k + 1, []⟩

theorem supply_eq_iff {batches : ℕ → Except (RollError α) (List α)} {k n : ℕ}
    {outcome : Except (RollError α) (List α)} {es : List (Event α)} :
    supply batches k = ⟨outcome, n, es⟩ ↔ batches k = outcome ∧ k + 1 = n ∧ [] = es := by
  rw [supply, Run.mk.injEq]

/-- Whether a roll is from the initial list or from one of the first `k` batches. -/
def isEarlier (k : ℕ) (told : α × Option ℕ) : Bool := told.2.all (· < k)

theorem isEarlier_succ_of_isEarlier {k : ℕ} {p : α × Option ℕ} (h : isEarlier k p = true) :
    isEarlier (k + 1) p = true := by
  rcases p with ⟨roll, _ | j⟩
  · rfl
  · simp only [isEarlier, Option.all_some, decide_eq_true_eq] at h ⊢
    omega

theorem origin_ne_of_isEarlier {k j : ℕ} (hj : k ≤ j) {p : α × Option ℕ}
    (h : isEarlier k p = true) : p.2 ≠ some j := by
  rcases p with ⟨roll, _ | i⟩
  · rintro ⟨⟩
  · simp only [isEarlier, Option.all_some, decide_eq_true_eq] at h
    rintro ⟨⟩
    omega

variable {batches : ℕ → Except (RollError α) (List α)}

theorem filter_eq_filter_filter {q r : γ → Bool} (h : ∀ c, q c = true → r c = true) (cs : List γ) :
    cs.filter q = (cs.filter r).filter q := by
  rw [List.filter_filter]
  refine List.filter_congr fun c _ => ?_
  cases hc : q c with
  | false => rfl
  | true => rw [h c hc, Bool.and_true]

/-- Where batch `k` is among rolls that are told by origin: its rolls are there in order, the first
of them directly behind a roll that calls for more, with `i` of these in front. -/
def Places (calls : α → Bool) (batches : ℕ → Except (RollError α) (List α))
    (told : List (α × Option ℕ)) (k i : ℕ) : Prop :=
  ∃ batch front caller behind, batches k = .ok batch ∧
    (told.filter fun p => p.2 = some k).map Prod.fst = batch ∧
    told = front ++ caller :: behind ∧ calls caller.1 = true ∧
    (front.map Prod.fst).countP calls = i ∧
    ∀ first ∈ batch.head?, behind.head? = some (first, some k)

theorem Places.cons {told : List (α × Option ℕ)} {k i : ℕ} (h : Places calls batches told k i)
    {p : α × Option ℕ} (hp : p.2 ≠ some k) :
    Places calls batches (p :: told) k (i + if calls p.1 then 1 else 0) := by
  obtain ⟨batch, front, caller, behind, hbatch, hrolls, htold, hcaller, hfront, hfirst⟩ := h
  refine ⟨batch, p :: front, caller, behind, hbatch, ?_, ?_, hcaller, ?_, hfirst⟩
  · rw [List.filter_cons_of_neg (by simpa using hp), hrolls]
  · rw [htold, List.cons_append]
  · rw [List.map_cons, List.countP_cons, hfront]

/-- What the loop puts out, told by origin, from `k` calls on to `n` of them: what was pending is
still there in order, and every batch since then is in its place. -/
structure Traced (calls : α → Bool) (batches : ℕ → Except (RollError α) (List α)) (k n : ℕ)
    (pending told : List (α × Option ℕ)) : Prop where
  calls_eq : n = k + (told.map Prod.fst).countP calls
  head_eq : told.head? = pending.head?
  earlier : told.filter (isEarlier k) = pending
  origin_lt : ∀ p ∈ told, isEarlier n p = true
  places : ∀ j, k ≤ j → j < n → Places calls batches told j (j - k)

namespace Traced

variable {k n : ℕ} {p : α × Option ℕ} {pending told : List (α × Option ℕ)}

theorem finish (k : ℕ) : Traced calls batches k k [] [] where
  calls_eq := rfl
  head_eq := rfl
  earlier := rfl
  origin_lt := by simp
  places j hj hlt := absurd hlt (Nat.not_lt.2 hj)

theorem isEarlier_of_le (hk : k ≤ n) (hp : isEarlier k p = true) : isEarlier n p = true := by
  induction hk with
  | refl => exact hp
  | step _ ih => exact isEarlier_succ_of_isEarlier ih

theorem keep (hcalls : calls p.1 = false) (hp : isEarlier k p = true)
    (h : Traced calls batches k n pending told) :
    Traced calls batches k n (p :: pending) (p :: told) where
  calls_eq := by
    rw [List.map_cons, List.countP_cons_of_neg (by rw [hcalls]; exact Bool.false_ne_true)]
    exact h.calls_eq
  head_eq := rfl
  earlier := by rw [List.filter_cons_of_pos hp, h.earlier]
  origin_lt := List.forall_mem_cons.2
    ⟨isEarlier_of_le (by rw [h.calls_eq]; exact Nat.le_add_right _ _) hp, h.origin_lt⟩
  places j hj hlt := by
    have hplaces := (h.places j hj hlt).cons (origin_ne_of_isEarlier hj hp)
    rwa [hcalls, if_neg Bool.false_ne_true, Nat.add_zero] at hplaces

/-- What was pending before a batch is still there in order behind it. -/
theorem pending_eq {batch : List α} (hpending : ∀ q ∈ pending, isEarlier k q = true)
    (h : Traced calls batches (k + 1) n (batch.map (·, some k) ++ pending) told) :
    told.filter (isEarlier k) = pending := by
  have hbatch : ∀ q ∈ batch.map (·, some k), ¬ isEarlier k q = true := by
    simp [isEarlier]
  rw [filter_eq_filter_filter fun _ => isEarlier_succ_of_isEarlier, h.earlier, List.filter_append,
    List.filter_eq_nil_iff.2 hbatch, List.nil_append, List.filter_eq_self.2 hpending]

/-- A batch is there in order. -/
theorem batch_eq {batch : List α} (hpending : ∀ q ∈ pending, isEarlier k q = true)
    (h : Traced calls batches (k + 1) n (batch.map (·, some k) ++ pending) told) :
    (told.filter fun q => q.2 = some k).map Prod.fst = batch := by
  have hnew : ∀ q ∈ batch.map (·, some k), decide (q.2 = some k) = true := by simp
  have hold : ∀ q ∈ pending, ¬ decide (q.2 = some k) = true := fun q hq => by
    simpa using origin_ne_of_isEarlier (Nat.le_refl _) (hpending q hq)
  have horigin : ∀ q : α × Option ℕ, decide (q.2 = some k) = true →
      isEarlier (k + 1) q = true := by
    rintro ⟨roll, origin⟩ hq
    obtain rfl := of_decide_eq_true hq
    simp [isEarlier]
  rw [filter_eq_filter_filter horigin, h.earlier, List.filter_append, List.filter_eq_self.2 hnew,
    List.filter_eq_nil_iff.2 hold, List.append_nil, List.map_map]
  exact List.map_id batch

theorem refill {batch : List α} (hcalls : calls p.1 = true) (hbatch : batches k = .ok batch)
    (hp : isEarlier k p = true) (hpending : ∀ q ∈ pending, isEarlier k q = true)
    (h : Traced calls batches (k + 1) n (batch.map (·, some k) ++ pending) told) :
    Traced calls batches k n (p :: pending) (p :: told) where
  calls_eq := by
    rw [List.map_cons, List.countP_cons_of_pos hcalls, h.calls_eq]
    omega
  head_eq := rfl
  earlier := by rw [List.filter_cons_of_pos hp, h.pending_eq hpending]
  origin_lt := List.forall_mem_cons.2
    ⟨isEarlier_of_le (by rw [h.calls_eq]; omega) hp, h.origin_lt⟩
  places j hj hlt := by
    rcases Nat.eq_or_lt_of_le hj with rfl | hj'
    · refine ⟨batch, [], p, told, hbatch, ?_, rfl, hcalls, by simp, fun first hfirst => ?_⟩
      · have hcaller : p.2 ≠ some k := origin_ne_of_isEarlier (Nat.le_refl _) hp
        rw [List.filter_cons_of_neg (by simpa using hcaller), h.batch_eq hpending]
      · rw [h.head_eq]
        cases batch with
        | nil => cases hfirst
        | cons roll batch =>
          cases hfirst
          rfl
    · have hplaces := (h.places j hj' hlt).cons (origin_ne_of_isEarlier hj hp)
      rwa [if_pos hcalls, show j - (k + 1) + 1 = j - k by omega] at hplaces

end Traced

/-- **A run of the loop that succeeds can be told by origin,** whatever the origins of the rolls
that are pending at its start. -/
theorem Unfolds.exists_traced {out rolls : List α} {k : ℕ} {r : Run ℕ α (List α)}
    (h : Unfolds calls (supply batches) out rolls k r) :
    ∀ (pending : List (α × Option ℕ)) (result : List α), pending.map Prod.fst = rolls →
      (∀ p ∈ pending, isEarlier k p = true) → r.outcome = .ok result →
      ∃ told, result = out ++ told.map Prod.fst ∧
        Traced calls batches k r.state pending told := by
  induction h with
  | finish out k =>
    rintro pending result hpending - hresult
    obtain rfl := List.map_eq_nil_iff.1 hpending
    cases hresult
    exact ⟨[], (List.append_nil out).symm, .finish k⟩
  | keep hcalls rounds ih =>
    rintro pending result hpending hearlier hresult
    obtain ⟨p, pending, rfl, rfl, rfl⟩ := List.map_eq_cons_iff.1 hpending
    obtain ⟨hp, hearlier⟩ := List.forall_mem_cons.1 hearlier
    obtain ⟨told, rfl, htold⟩ := ih pending result rfl hearlier hresult
    exact ⟨p :: told, by simp, htold.keep hcalls hp⟩
  | @refill out roll pending k batch s' es r hcalls hmore rounds ih =>
    rintro pending result hpending hearlier hresult
    obtain ⟨p, pending, rfl, rfl, rfl⟩ := List.map_eq_cons_iff.1 hpending
    obtain ⟨hp, hearlier⟩ := List.forall_mem_cons.1 hearlier
    obtain ⟨hbatch, rfl, rfl⟩ := supply_eq_iff.1 hmore
    have hearlier' : ∀ q ∈ batch.map (·, some k) ++ pending, isEarlier (k + 1) q = true := by
      intro q hq
      rcases List.mem_append.1 hq with hq | hq
      · obtain ⟨roll, -, rfl⟩ := List.mem_map.1 hq
        simp [isEarlier]
      · exact isEarlier_succ_of_isEarlier (hearlier q hq)
    obtain ⟨told, rfl, htold⟩ := ih (batch.map (·, some k) ++ pending) result
      (by simp [Function.comp_def]) hearlier' hresult
    exact ⟨p :: told, by simp, htold.refill hcalls hbatch hp hearlier⟩
  | fail hcalls hmore =>
    rintro pending result - - hresult
    cases hresult

/-- **A run of the loop that fails does so with the first batch that is an error.** -/
theorem Unfolds.exists_fail {out rolls : List α} {k : ℕ} {r : Run ℕ α (List α)} {e : RollError α}
    (h : Unfolds calls (supply batches) out rolls k r) (hr : r.outcome = .error e) :
    ∃ j, k ≤ j ∧ r.state = j + 1 ∧ batches j = .error e ∧
      ∀ i, k ≤ i → i < j → ∃ batch, batches i = .ok batch := by
  induction h with
  | finish out k => cases hr
  | keep hcalls rounds ih => exact ih hr
  | @refill out roll pending k batch s' es r hcalls hmore rounds ih =>
    obtain ⟨hbatch, rfl, rfl⟩ := supply_eq_iff.1 hmore
    obtain ⟨j, hj, hstate, herror, hok⟩ := ih hr
    refine ⟨j, by omega, hstate, herror, fun i hi hlt => ?_⟩
    rcases Nat.eq_or_lt_of_le hi with rfl | hi
    · exact ⟨batch, hbatch⟩
    · exact hok i hi hlt
  | @fail out roll pending k e' s' es hcalls hmore =>
    obtain ⟨hbatch, rfl, -⟩ := supply_eq_iff.1 hmore
    cases hr
    exact ⟨k, Nat.le_refl _, rfl, hbatch, fun i hi hlt => absurd hlt (Nat.not_lt.2 hi)⟩

/-- **Exploding rolls unfold depth first.**  The recursion ends for some depth just if the loop
with a list of pending rolls ends, and with the same run: the same rolls or error, the same state
and the same events.

Let what is added come from a sequence of batches.  If the run succeeds, then there was a call for
each roll of the result that calls for more.  The rolls of the result can be told by origin so that
those of the initial list are there in order, and those of batch `k` too, the first of them directly
behind the roll that calls for more with `k` others in front.  If the run fails, then with the error
that the last call met, and no call before it met one. -/
theorem explode_unfolds (rolls : List α) (calls : α → Bool) (more : RollM σ α (List α)) (s : σ)
    (batches : ℕ → Except (RollError α) (List α)) :
    (∀ r, (∃ depth, explode depth rolls calls more s = r.uncut) ↔
      Unfolds calls more [] rolls s r) ∧
    (∀ depth result n es,
      explode depth rolls calls (supply batches) 0 = ⟨.ok (some result), n, es⟩ →
        n = result.countP calls ∧ ∃ told : List (α × Option ℕ), told.map Prod.fst = result ∧
          (told.filter fun p => p.2 = none).map Prod.fst = rolls ∧
          (∀ p ∈ told, ∀ k ∈ p.2, k < n) ∧ ∀ k < n, Places calls batches told k k) ∧
    ∀ depth e n es, explode depth rolls calls (supply batches) 0 = ⟨.error e, n, es⟩ →
      ∃ k, n = k + 1 ∧ batches k = .error e ∧ ∀ j < k, ∃ batch, batches j = .ok batch := by
  refine ⟨fun r => exists_explode_eq_iff, fun depth result n es h => ?_, fun depth e n es h => ?_⟩
  · have hloop : Unfolds calls (supply batches) [] rolls 0 ⟨.ok result, n, es⟩ :=
      exists_explode_eq_iff.1 ⟨depth, h⟩
    obtain ⟨told, rfl, htold⟩ := hloop.exists_traced (rolls.map (·, none)) result
      (by simp [Function.comp_def]) (by simp [isEarlier]) rfl
    have hinitial : (told.filter fun p => p.2 = none) = rolls.map (·, none) := by
      rw [← htold.earlier]
      refine List.filter_congr ?_
      rintro ⟨roll, _ | j⟩ - <;> simp [isEarlier]
    refine ⟨?_, told, rfl, ?_, ?_, fun k hk => htold.places k (Nat.zero_le k) hk⟩
    · have hcount := htold.calls_eq
      rwa [Nat.zero_add] at hcount
    · rw [hinitial, List.map_map]
      exact List.map_id rolls
    · rintro ⟨roll, _⟩ hp k ⟨⟩
      exact of_decide_eq_true (htold.origin_lt _ hp)
  · have hloop : Unfolds calls (supply batches) [] rolls 0 ⟨.error e, n, es⟩ :=
      exists_explode_eq_iff.1 ⟨depth, h⟩
    obtain ⟨j, -, hn, herror, hok⟩ := hloop.exists_fail rfl
    exact ⟨j, hn, herror, fun i hi => hok i (Nat.zero_le i) hi⟩

/-- The hypotheses of `explode_unfolds` are satisfiable: nines and tens call for more, and a ten
that was added does so too; and the third call of a like sequence fails. -/
theorem explode_unfolds_tens :
    let calls : ℕ → Bool := fun roll => 9 ≤ roll
    let batches : ℕ → Except (RollError ℕ) (List ℕ) := fun k => .ok ([[10], [10], [3]].getD k [1])
    let scarce : ℕ → Except (RollError ℕ) (List ℕ) := fun k =>
      if k < 2 then batches k else .error (.refused "empty bag")
    (∃ told : List (ℕ × Option ℕ), told.map Prod.fst = [9, 10, 10, 3, 4, 10, 1] ∧
      (told.filter fun p => p.2 = none).map Prod.fst = [9, 4, 10] ∧
        ∀ k < 4, Places calls batches told k k) ∧
      ∃ k, 3 = k + 1 ∧ scarce k = .error (.refused "empty bag") := by
  intro calls batches scarce
  have hresult : explode 4 [9, 4, 10] calls (supply batches) 0 =
      ⟨.ok (some [9, 10, 10, 3, 4, 10, 1]), 4, []⟩ := rfl
  have hfailure : explode 4 [9, 4, 10] calls (supply scarce) 0 =
      ⟨.error (.refused "empty bag"), 3, []⟩ := rfl
  obtain ⟨-, told, htold, hinitial, -, hplaces⟩ :=
    (explode_unfolds [9, 4, 10] calls (supply batches) 0 batches).2.1 4 _ 4 [] hresult
  obtain ⟨k, hk, herror, -⟩ :=
    (explode_unfolds [9, 4, 10] calls (supply scarce) 0 scarce).2.2 4 _ 3 [] hfailure
  exact ⟨⟨told, htold, hinitial, hplaces⟩, k, hk, herror⟩

end HouseRule
end DiceFormula
