/-
# Runs

Rolling dice takes place at a table whose state changes with every draw, may fail,
and is watched: the events of a run are its draws and the notes about its progress,
in the order in which they happen.

A `RollM` is a recipe for a run: from a state it gives an outcome, the next state
and the events in between.  Recipes are put together with `do`; the first error
ends the run, and keeps the state and the events up to it.  Nothing in a recipe
can ask for the events, so what is noted never changes what is rolled.

Repetition goes through `RollM.fold`, once for each entry of a list, or through
`RollM.times`, a number of times.  Both need no stack, and both stop at the first
error, so a number that no run could ever reach does no harm if there is one.
-/

import DiceFormula.Error

namespace DiceFormula

/-- What is worth noting about a run. -/
inductive Note (α : Type) where
  /-- A pool rolled these values, and kept them apart. -/
  | rolled (pool : Pool α) (rolls : List α)
  /-- A pool rolled a number of dice with this sum. -/
  | totaled (pool : Pool α) (count : Nat) (total : α)
  /-- An operation joined a pool's value to a total, over so many rolls before. -/
  | joined (left : α) (operation : Operation) (right : α) (count : Nat) (total : α)

/-- A draw of an integer from `low` up to, but not including, `high`. -/
structure Draw where
  low : Int
  high : Int
  result : Int
deriving DecidableEq, Repr

inductive Event (α : Type) where
  | draw (draw : Draw)
  | note (note : Note α)

/-- The outcome of a run, the state after it, and its events, last one first. -/
structure Run (σ α β : Type) where
  outcome : Except (RollError α) β
  state : σ
  events : List (Event α)

/-- A recipe for a run that starts in a given state. -/
def RollM (σ α β : Type) : Type := σ → Run σ α β

variable {σ α β γ : Type}

namespace Run

/-- The draws of a run, first one first. -/
def draws (r : Run σ α β) : List Draw :=
  r.events.reverse.filterMap fun
    | .draw d => some d
    | .note _ => none

/-- The notes of a run, first one first. -/
def notes (r : Run σ α β) : List (Note α) :=
  r.events.reverse.filterMap fun
    | .draw _ => none
    | .note n => some n

/-- The same run after some earlier events. -/
@[inline] def after (r : Run σ α β) (earlier : List (Event α)) : Run σ α β :=
  { r with events := r.events ++ earlier }

@[simp] theorem after_nil (r : Run σ α β) : r.after [] = r := by simp [after]

@[simp] theorem after_after (r : Run σ α β) (es fs : List (Event α)) :
    (r.after es).after fs = r.after (es ++ fs) := by
  simp [after]

@[simp] theorem after_mk (outcome : Except (RollError α) β) (s : σ) (es fs : List (Event α)) :
    after ⟨outcome, s, es⟩ fs = ⟨outcome, s, es ++ fs⟩ := rfl

end Run

namespace RollM

@[ext] theorem ext {x y : RollM σ α β} (h : ∀ s, x s = y s) : x = y := funext h

/-- Succeeds at once. -/
@[inline] protected def pure (b : β) : RollM σ α β := fun s => ⟨.ok b, s, []⟩

/-- Fails at once. -/
@[inline] protected def fail (e : RollError α) : RollM σ α β := fun s => ⟨.error e, s, []⟩

/-- Goes on with the result of a run, unless it failed. -/
@[inline] protected def bind (x : RollM σ α β) (f : β → RollM σ α γ) : RollM σ α γ := fun s =>
  match x s with
  | ⟨.ok b, s, es⟩ => (f b s).after es
  | ⟨.error e, s, es⟩ => ⟨.error e, s, es⟩

instance : Monad (RollM σ α) where
  pure := RollM.pure
  bind := RollM.bind

theorem pure_apply (b : β) (s : σ) : (pure b : RollM σ α β) s = ⟨.ok b, s, []⟩ := rfl

theorem bind_apply (x : RollM σ α β) (f : β → RollM σ α γ) (s : σ) :
    (x >>= f) s =
      match x s with
      | ⟨.ok b, s, es⟩ => (f b s).after es
      | ⟨.error e, s, es⟩ => ⟨.error e, s, es⟩ := rfl

instance : LawfulMonad (RollM σ α) :=
  LawfulMonad.mk' (RollM σ α)
    (fun x => by
      ext s
      show RollM.bind x (fun b => RollM.pure (id b)) s = x s
      simp only [RollM.bind, RollM.pure, id]
      rcases x s with ⟨_ | _, _, _⟩ <;> simp)
    (fun b f => by
      ext s
      show RollM.bind (RollM.pure b) f s = f b s
      simp [RollM.bind, RollM.pure])
    (fun x f g => by
      ext s
      show RollM.bind (RollM.bind x f) g s = RollM.bind x (fun b => RollM.bind (f b) g) s
      simp only [RollM.bind]
      rcases x s with ⟨_ | b, s, es⟩
      · rfl
      · rcases h : f b s with ⟨_ | c, t, fs⟩ <;> simp [h])

/-- Notes something. -/
@[inline] def note (n : Note α) : RollM σ α Unit := fun s => ⟨.ok (), s, [.note n]⟩

/-- Turns an error into a result. -/
@[inline] def attempt (x : RollM σ α β) : RollM σ α (Except (RollError α) β) := fun s =>
  let r := x s
  ⟨.ok r.outcome, r.state, r.events⟩

/-- Goes through a list with a value that every entry may change, behind the events
`es`. -/
@[specialize] def foldAfter (f : β → γ → RollM σ α β) :
    List γ → β → σ → List (Event α) → Run σ α β
  | [], b, s, es => ⟨.ok b, s, es⟩
  | c :: cs, b, s, es =>
    match f b c s with
    | ⟨.ok b, s, fs⟩ => foldAfter f cs b s (fs ++ es)
    | ⟨.error e, s, fs⟩ => ⟨.error e, s, fs ++ es⟩

/-- Goes through a list with a value that every entry may change. -/
@[inline] def fold (f : β → γ → RollM σ α β) (cs : List γ) (b : β) : RollM σ α β :=
  fun s => foldAfter f cs b s []

theorem foldAfter_eq (f : β → γ → RollM σ α β) (cs : List γ) (b : β) (s : σ)
    (es : List (Event α)) : foldAfter f cs b s es = (fold f cs b s).after es := by
  induction cs generalizing b s es with
  | nil => rfl
  | cons c cs ih =>
    rw [fold, foldAfter, foldAfter]
    rcases f b c s with ⟨_ | b, s, fs⟩
    · simp
    · simp only [List.append_nil]
      rw [ih b s (fs ++ es), ih b s fs, Run.after_after]

@[simp] theorem fold_nil (f : β → γ → RollM σ α β) (b : β) : fold f [] b = pure b := rfl

@[simp] theorem fold_cons (f : β → γ → RollM σ α β) (c : γ) (cs : List γ) (b : β) :
    fold f (c :: cs) b = f b c >>= fold f cs := by
  ext s
  rw [bind_apply, fold, foldAfter]
  rcases f b c s with ⟨_ | b, s, fs⟩
  · simp
  · simp only [List.append_nil]
    exact foldAfter_eq f cs b s fs

/-- Runs a recipe once for each entry of a list, and lists the results. -/
@[inline] def collectMap (f : γ → RollM σ α β) (cs : List γ) : RollM σ α (List β) := do
  return (← fold (fun bs c => do return (← f c) :: bs) cs []).reverse

/-- Changes a value a number of times, behind the events `es`. -/
@[specialize] def timesAfter (f : β → RollM σ α β) :
    Nat → β → σ → List (Event α) → Run σ α β
  | 0, b, s, es => ⟨.ok b, s, es⟩
  | n + 1, b, s, es =>
    match f b s with
    | ⟨.ok b, s, fs⟩ => timesAfter f n b s (fs ++ es)
    | ⟨.error e, s, fs⟩ => ⟨.error e, s, fs ++ es⟩

/-- Changes a value a number of times. -/
@[inline] def times (f : β → RollM σ α β) (n : Nat) (b : β) : RollM σ α β :=
  fun s => timesAfter f n b s []

theorem timesAfter_eq (f : β → RollM σ α β) (n : Nat) (b : β) (s : σ)
    (es : List (Event α)) : timesAfter f n b s es = (times f n b s).after es := by
  induction n generalizing b s es with
  | zero => rfl
  | succ n ih =>
    rw [times, timesAfter, timesAfter]
    rcases f b s with ⟨_ | b, s, fs⟩
    · simp
    · simp only [List.append_nil]
      rw [ih b s (fs ++ es), ih b s fs, Run.after_after]

@[simp] theorem times_zero (f : β → RollM σ α β) (b : β) : times f 0 b = pure b := rfl

@[simp] theorem times_succ (f : β → RollM σ α β) (n : Nat) (b : β) :
    times f (n + 1) b = f b >>= times f n := by
  ext s
  rw [bind_apply, times, timesAfter]
  rcases f b s with ⟨_ | b, s, fs⟩
  · simp
  · simp only [List.append_nil]
    exact timesAfter_eq f n b s fs

/-- Runs a recipe a number of times, and lists the results. -/
@[inline] def collect (n : Nat) (x : RollM σ α β) : RollM σ α (List β) := do
  return (← times (fun bs => do return (← x) :: bs) n []).reverse

/-- Runs a recipe a number of times, and adds the results up from left to right. -/
@[inline] def total [Scalar α] (n : Nat) (x : RollM σ α α) : RollM σ α α :=
  times (fun sum => do return sum + (← x)) n Scalar.neutral

end RollM
end DiceFormula
