/-
# Recipes that agree

Two recipes agree when no roller can tell them apart: their runs from the same state
make the same draws and end in the same state, and either both succeed, with results
that a relation `R` connects, or both fail, with errors that a relation `E` connects.
The notes of the two runs may differ.

Agreement is proved along two recipes at once.  It passes through `>>=` if it holds of
both parts (`Agree.bind`), and through repetition if a step on both sides keeps the
results connected (`Agree.times`, `Agree.fold`); a note on either side changes
nothing.
-/

import DiceFormula.Proofs.Roll.Outcome

namespace DiceFormula

variable {σ α β γ : Type} {β' γ' : Type}

namespace Run

theorem draws_after (r : Run σ α β) (earlier : List (Event α)) :
    (r.after earlier).draws = (⟨r.outcome, r.state, earlier⟩ : Run σ α β).draws ++ r.draws := by
  simp only [draws, after, List.reverse_append, List.filterMap_append]

/-- Both outcomes are results that `R` connects, or errors that `E` connects. -/
inductive SameOutcome (E : RollError α → RollError α → Prop) (R : β → γ → Prop) :
    Except (RollError α) β → Except (RollError α) γ → Prop where
  | ok {b c} (h : R b c) : SameOutcome E R (.ok b) (.ok c)
  | error {e f} (h : E e f) : SameOutcome E R (.error e) (.error f)

theorem SameOutcome.mono {E E' : RollError α → RollError α → Prop} {R R' : β → γ → Prop}
    {o : Except (RollError α) β} {q : Except (RollError α) γ} (h : SameOutcome E R o q)
    (hE : ∀ e f, E e f → E' e f) (hR : ∀ b c, R b c → R' b c) : SameOutcome E' R' o q := by
  cases h with
  | ok h => exact .ok (hR _ _ h)
  | error h => exact .error (hE _ _ h)

/-- A result on the left has a result on the right that it is connected to. -/
theorem SameOutcome.exists_of_ok {E : RollError α → RollError α → Prop} {R : β → γ → Prop}
    {b : β} {q : Except (RollError α) γ} (h : SameOutcome E R (.ok b) q) :
    ∃ c, q = .ok c ∧ R b c := by
  cases h with
  | ok h => exact ⟨_, rfl, h⟩

/-- So does an error. -/
theorem SameOutcome.exists_of_error {E : RollError α → RollError α → Prop} {R : β → γ → Prop}
    {e : RollError α} {q : Except (RollError α) γ} (h : SameOutcome E R (.error e) q) :
    ∃ f, q = .error f ∧ E e f := by
  cases h with
  | error h => exact ⟨_, rfl, h⟩

/-- Outcomes with the same errors, of whose results one is a function of the other. -/
theorem SameOutcome.map_eq {R : β → γ → Prop} {o : Except (RollError α) β}
    {q : Except (RollError α) γ} {f : β → γ} (h : SameOutcome Eq R o q)
    (hR : ∀ b c, R b c → f b = c) : o.map f = q := by
  cases h with
  | ok h => exact congrArg Except.ok (hR _ _ h)
  | error h => exact congrArg Except.error h

/-- Outcomes with the same errors and the same results are the same. -/
theorem SameOutcome.eq {o q : Except (RollError α) β} (h : SameOutcome Eq Eq o q) : o = q := by
  cases h with
  | ok h => rw [h]
  | error h => rw [h]

/-- Runs that make the same draws, end in the same state and have connected outcomes. -/
structure Agree (E : RollError α → RollError α → Prop) (R : β → γ → Prop)
    (r : Run σ α β) (q : Run σ α γ) : Prop where
  draws : r.draws = q.draws
  state : r.state = q.state
  outcome : SameOutcome E R r.outcome q.outcome

end Run

namespace RollM

/-- Recipes whose runs agree from every state. -/
def Agree (E : RollError α → RollError α → Prop) (R : β → γ → Prop) (x : RollM σ α β)
    (y : RollM σ α γ) : Prop :=
  ∀ s, Run.Agree E R (x s) (y s)

namespace Agree

variable {E : RollError α → RollError α → Prop} {R : β → γ → Prop} {S : β' → γ' → Prop}

protected theorem pure {b : β} {c : γ} (h : R b c) :
    Agree E R (pure b : RollM σ α β) (pure c) :=
  fun _ => ⟨rfl, rfl, .ok h⟩

protected theorem fail {e f : RollError α} (h : E e f) :
    Agree E R (RollM.fail e : RollM σ α β) (RollM.fail f) :=
  fun _ => ⟨rfl, rfl, .error h⟩

theorem mono {x : RollM σ α β} {y : RollM σ α γ} {R' : β → γ → Prop} (h : Agree E R x y)
    (hR : ∀ b c, R b c → R' b c) : Agree E R' x y :=
  fun s => ⟨(h s).draws, (h s).state, (h s).outcome.mono (fun _ _ he => he) hR⟩

/-- A recipe agrees with itself, on results that it gives. -/
theorem refl {x : RollM σ α β} {P : β → Prop} (hE : ∀ e, E e e) (hx : x.Gives P) :
    Agree E (fun b c => b = c ∧ P b) x x := by
  intro s
  refine ⟨rfl, rfl, ?_⟩
  cases h : (x s).outcome with
  | ok b => exact .ok ⟨rfl, hx s b h⟩
  | error e => exact .error (hE e)

theorem self (hE : ∀ e, E e e) (x : RollM σ α β) : Agree E Eq x x :=
  (refl hE (P := fun _ => True) fun _ _ _ => trivial).mono fun _ _ h => h.1

theorem bind {x : RollM σ α β} {y : RollM σ α γ} {f : β → RollM σ α β'} {g : γ → RollM σ α γ'}
    (h : Agree E R x y) (hf : ∀ b c, R b c → Agree E S (f b) (g c)) :
    Agree E S (x >>= f) (y >>= g) := by
  intro s
  obtain ⟨hd, hs, ho⟩ := h s
  rw [bind_apply, bind_apply]
  rcases hx : x s with ⟨ox, s₁, es⟩
  rcases hy : y s with ⟨oy, s₂, fs⟩
  rw [hx, hy] at hd hs ho
  obtain rfl : s₁ = s₂ := hs
  cases ho with
  | ok hb =>
    obtain ⟨hd', hs', ho'⟩ := hf _ _ hb s₁
    refine ⟨?_, hs', ho'⟩
    rw [Run.draws_after, Run.draws_after, hd']
    exact congrArg (· ++ _) hd
  | error he => exact ⟨hd, rfl, .error he⟩

/-- What follows on one side only may change the result, but neither draws nor fails. -/
theorem bind_pure_right {x : RollM σ α β} {y : RollM σ α γ} {f : β → RollM σ α β'}
    {S : β' → γ → Prop} (h : Agree E R x y) (hf : ∀ b c, R b c → Agree E S (f b) (pure c)) :
    Agree E S (x >>= f) y := by
  have := h.bind hf
  rwa [bind_pure] at this

/-- A note in front changes nothing. -/
theorem note_bind {n : Note α} {f : Unit → RollM σ α β} {y : RollM σ α γ}
    (h : Agree E R (f ()) y) : Agree E R (note n >>= f) y := by
  have hn : Agree (σ := σ) E (fun _ _ => True) (note n) (pure ()) :=
    fun _ => ⟨rfl, rfl, .ok trivial⟩
  have := hn.bind (f := f) (g := fun _ => y) fun _ _ _ => h
  rwa [pure_bind] at this

theorem bind_note {n : Note α} {x : RollM σ α β} {g : Unit → RollM σ α γ}
    (h : Agree E R x (g ())) : Agree E R x (note n >>= g) := by
  have hn : Agree (σ := σ) E (fun _ _ => True) (pure ()) (note n) :=
    fun _ => ⟨rfl, rfl, .ok trivial⟩
  have := hn.bind (f := fun _ => x) (g := g) fun _ _ _ => h
  rwa [pure_bind] at this

/-- Steps on both sides that keep their results connected, taken `n` times. -/
theorem times {f : β → RollM σ α β} {g : γ → RollM σ α γ} {R : Nat → β → γ → Prop}
    (step : ∀ k b c, R k b c → Agree E (R (k + 1)) (f b) (g c)) (n : Nat) :
    ∀ k b c, R k b c → Agree E (R (k + n)) (RollM.times f n b) (RollM.times g n c) := by
  induction n with
  | zero =>
    intro k b c h
    rw [times_zero, times_zero]
    exact .pure h
  | succ n ih =>
    intro k b c h
    rw [times_succ, times_succ, ← Nat.succ_add_eq_add_succ]
    exact (step k b c h).bind (ih (k + 1))

/-- Steps on both sides that keep their results connected, one for each entry of a list. -/
theorem fold {f : β → β' → RollM σ α β} {g : γ → β' → RollM σ α γ} {cs : List β'}
    (step : ∀ c ∈ cs, ∀ a b, R a b → Agree E R (f a c) (g b c)) :
    ∀ a b, R a b → Agree E R (RollM.fold f cs a) (RollM.fold g cs b) := by
  induction cs with
  | nil =>
    intro a b h
    rw [fold_nil, fold_nil]
    exact .pure h
  | cons c cs ih =>
    intro a b h
    rw [fold_cons, fold_cons]
    exact (step c List.mem_cons_self a b h).bind
      (ih fun c hc => step c (List.mem_cons_of_mem _ hc))

end Agree
end RollM
end DiceFormula
