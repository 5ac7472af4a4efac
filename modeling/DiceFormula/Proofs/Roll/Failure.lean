/-
# Checked dice roll

Dice that the checked builders made fail to roll in one way only: a count comes out above
`Pool.maxRolls`.  A die none of whose counts can do so always rolls
(`Pool.Checked.rolls`).

`x.FailsWith E` says that every run of the recipe `x` that fails, from whatever state, has an
error that satisfies `E`.  It goes with `x.Gives P`: what is done with a result can rely on
what is known of it.

A count is checked once, when its pool is built, and then only by the integer part of its lower
bound.  Every roll of it lies above that bound (`Die.roll_gives_bounds`), and integer parts are
monotone, so no count is below one.  Then there is a die to roll, and no list of rolls is empty;
for the recipes that keep their rolls apart this is told by the agreement with those that do
not.
-/

import DiceFormula.Proofs.Die.Checked
import DiceFormula.Proofs.Die.Enclosure
import DiceFormula.Proofs.Roll.Transcript

namespace DiceFormula

variable {σ : Type}

namespace RollM

variable {α β γ : Type}

/-- Whenever a run of `x` fails, its error satisfies `E`. -/
def FailsWith (x : RollM σ α β) (E : RollError α → Prop) : Prop :=
  ∀ s e, (x s).outcome = .error e → E e

theorem failsWith_pure (b : β) (E : RollError α → Prop) :
    (pure b : RollM σ α β).FailsWith E := by
  intro s e he
  cases he

theorem failsWith_fail {E : RollError α → Prop} {e : RollError α} (h : E e) :
    (RollM.fail e : RollM σ α β).FailsWith E := by
  intro s e' he
  cases he
  exact h

theorem failsWith_note (n : Note α) (E : RollError α → Prop) :
    (note n : RollM σ α Unit).FailsWith E := by
  intro s e he
  cases he

/-- A run of two recipes fails when the first does, or when the second does after it. -/
theorem outcome_bind_eq_error {x : RollM σ α β} {f : β → RollM σ α γ} {s : σ} {e : RollError α} :
    ((x >>= f) s).outcome = .error e ↔ (x s).outcome = .error e ∨
      ∃ b, (x s).outcome = .ok b ∧ (f b (x s).state).outcome = .error e := by
  rw [bind_apply]
  rcases x s with ⟨_ | b, s', es⟩ <;> simp [Run.after]

namespace FailsWith

variable {E : RollError α → Prop}

theorem bind_of_gives {x : RollM σ α β} {f : β → RollM σ α γ} {P : β → Prop} (hx : x.FailsWith E)
    (hP : x.Gives P) (hf : ∀ b, P b → (f b).FailsWith E) : (x >>= f).FailsWith E := by
  intro s e he
  rcases outcome_bind_eq_error.1 he with he | ⟨b, hb, he⟩
  · exact hx s e he
  · exact hf b (hP s b hb) _ e he

theorem bind {x : RollM σ α β} {f : β → RollM σ α γ} (hx : x.FailsWith E)
    (hf : ∀ b, (f b).FailsWith E) : (x >>= f).FailsWith E :=
  hx.bind_of_gives (P := fun _ => True) (fun _ _ _ => trivial) fun b _ => hf b

theorem times {f : β → RollM σ α β} (step : ∀ b, (f b).FailsWith E) (n : ℕ) :
    ∀ b, (RollM.times f n b).FailsWith E := by
  induction n with
  | zero =>
    intro b
    rw [times_zero]
    exact failsWith_pure b E
  | succ n ih =>
    intro b
    rw [times_succ]
    exact (step b).bind ih

theorem fold {f : β → γ → RollM σ α β} {cs : List γ} (step : ∀ c ∈ cs, ∀ b, (f b c).FailsWith E) :
    ∀ b, (RollM.fold f cs b).FailsWith E := by
  induction cs with
  | nil =>
    intro b
    rw [fold_nil]
    exact failsWith_pure b E
  | cons c cs ih =>
    intro b
    rw [fold_cons]
    exact (step c List.mem_cons_self b).bind (ih fun c hc => step c (List.mem_cons_of_mem _ hc))

/-- Recipes that agree fail alike. -/
theorem of_agree {x : RollM σ α β} {y : RollM σ α γ} {R : β → γ → Prop} (h : Agree Eq R x y)
    (hy : y.FailsWith E) : x.FailsWith E := by
  intro s e he
  have ho := (h s).outcome
  rw [he] at ho
  obtain ⟨f, hf, rfl⟩ := ho.exists_of_error
  exact hy s e hf

/-- A recipe without an error to fail with succeeds. -/
theorem exists_ok {x : RollM σ α β} (h : x.FailsWith E) (hE : ∀ e, ¬ E e) (s : σ) :
    ∃ b, (x s).outcome = .ok b := by
  cases ho : (x s).outcome with
  | ok b => exact ⟨b, rfl⟩
  | error e => exact absurd (h s e ho) (hE e)

end FailsWith
end RollM

variable {t : Table σ ℚ} {E : RollError ℚ → Prop}

/-- Whatever count above `Pool.maxRolls` its bounds allow, `E` accepts the error for it. -/
def Pool.Excuses (E : RollError ℚ → Prop) (p : Pool ℚ) : Prop :=
  ∀ n, (Pool.maxRolls : ℚ) < n → n ≤ (p.counts noCustom).high → E (.countTooLarge p n)

namespace Pool

/-- **A count that passed the check is never rolled below one.** -/
theorem one_le_trunc_of_contains {count value : Die ℚ} {p : Pool ℚ} {x : ℚ}
    (h : ofCount noCustom count value = .ok p) (hx : (count.bounds noCustom).Contains x) :
    1 ≤ (Scalar.trunc x : ℚ) := by
  have hone : (Scalar.ofInt 1 : ℚ) = 1 := by rw [Scalar.ofInt_rat, Int.cast_one]
  have hlow := not_lt.1 (ofCount_eq_ok_iff.1 h).1
  rw [hone] at hlow
  exact hlow.trans (Scalar.trunc_mono hx.1)

/-- A count that is not below one is only refused above `maxRolls`. -/
theorem countOf_eq_error {p : Pool ℚ} {x : ℚ} {e : RollError ℚ} (hx : 1 ≤ (Scalar.trunc x : ℚ))
    (h : p.countOf x = .error e) :
    e = .countTooLarge p (Scalar.trunc x) ∧ (maxRolls : ℚ) < Scalar.trunc x := by
  have hone : (Scalar.ofInt 1 : ℚ) = 1 := by rw [Scalar.ofInt_rat, Int.cast_one]
  have hmax : (Scalar.ofInt maxRolls : ℚ) = maxRolls := rfl
  simp only [countOf, hone, hmax, if_pos hx] at h
  split_ifs at h with hlarge
  exact ⟨(Except.error.inj h).symm, hlarge⟩

theorem rollCount_failsWith {count value : Die ℚ} {p : Pool ℚ}
    (h : ofCount noCustom count value = .ok p) (hE : p.Excuses E)
    (hc : (count.roll t).FailsWith E) (hb : (count.roll t).Gives (count.bounds noCustom).Contains) :
    (p.rollCount t).FailsWith E := by
  obtain rfl := (ofCount_eq_ok_iff.1 h).2
  rw [rollCount, resolve]
  refine hc.bind_of_gives hb fun x hx => ?_
  split
  · exact RollM.failsWith_pure _ E
  · rename_i e he
    obtain ⟨rfl, hlarge⟩ := countOf_eq_error (one_le_trunc_of_contains h hx) he
    refine RollM.failsWith_fail (hE _ hlarge ?_)
    rw [counts]
    exact hx.trunc.2

theorem rollCounted_failsWith {α : Type} [Scalar α] {t : Table σ α} {E : RollError α → Prop}
    {p : Pool α} (hc : (p.rollCount t).FailsWith E) (hv : (p.value.roll t).FailsWith E) :
    (p.rollCounted t).FailsWith E := by
  rw [rollCounted_eq]
  refine hc.bind fun n => RollM.FailsWith.bind ?_ fun sum =>
    (RollM.failsWith_note _ E).bind fun _ => RollM.failsWith_pure _ E
  exact RollM.FailsWith.times (fun sum => hv.bind fun x => RollM.failsWith_pure _ E) n _

end Pool

/-- A chain fails as its pools do. -/
theorem Chain.roll_failsWith {α : Type} [Scalar α] {t : Table σ α} {E : RollError α → Prop}
    {c : Chain α} (h : ∀ l ∈ c.links, (l.pool.rollCounted t).FailsWith E) :
    (c.roll t).FailsWith E := by
  rw [roll, joinLinks, RollM.fold_map]
  refine RollM.FailsWith.bind (RollM.FailsWith.fold (fun l hl before => ?_) _) fun r =>
    RollM.failsWith_pure _ E
  exact (h l hl).bind fun r => (RollM.failsWith_note _ E).bind fun _ => RollM.failsWith_pure _ E

mutual

/-- A checked die fails to roll only where a count of one of its pools is too large. -/
theorem Die.Checked.roll_failsWith (ht : t.AnswersInRange) :
    ∀ {d : Die ℚ}, d.Checked → (∀ p ∈ d.pools, p.Excuses E) → (d.roll t).FailsWith E
  | _, .fixed h, _ => by
    rw [Die.ofFixed_eq_ok h, Die.roll]
    exact RollM.failsWith_pure _ E
  | _, .uniform u, _ => by
    rw [Die.roll]
    intro s e he
    cases he
  | _, .pool hp, hE => by
    rw [Die.pools] at hE
    rw [Die.roll_pool]
    exact (Pool.Checked.rollCounted_failsWith ht hp hE).bind fun r => RollM.failsWith_pure _ E
  | _, .link hc, hE => by
    rw [Die.pools] at hE
    rw [Die.roll_link]
    exact Chain.roll_failsWith (Chain.Checked.links_failsWith ht hc hE)
  | _, .chain hc, hE => by
    rw [Die.pools] at hE
    rw [Die.roll_chain]
    exact Chain.roll_failsWith (Chain.Checked.links_failsWith ht hc hE)

@[inherit_doc Die.Checked.roll_failsWith]
theorem Pool.Checked.rollCounted_failsWith (ht : t.AnswersInRange) :
    ∀ {p : Pool ℚ}, p.Checked → (∀ q ∈ p.pools, q.Excuses E) → (p.rollCounted t).FailsWith E
  | _, .single hv, hE => by
    rw [Pool.pools, List.forall_mem_cons] at hE
    exact Pool.rollCounted_failsWith (RollM.failsWith_pure 1 E)
      (Die.Checked.roll_failsWith ht hv hE.2)
  | _, .counted hc hv h, hE => by
    have hbounds := Die.roll_gives_bounds (b := noCustom) ht _ fun k hk => absurd hk hc.not_custom
    obtain rfl := (Pool.ofCount_eq_ok_iff.1 h).2
    simp only [Pool.pools, List.forall_mem_cons, List.forall_mem_append] at hE
    obtain ⟨hp, hcount, hvalue⟩ := hE
    exact Pool.rollCounted_failsWith
      (Pool.rollCount_failsWith h hp (Die.Checked.roll_failsWith ht hc hcount) hbounds)
      (Die.Checked.roll_failsWith ht hv hvalue)

@[inherit_doc Die.Checked.roll_failsWith]
theorem Chain.Checked.links_failsWith (ht : t.AnswersInRange) :
    ∀ {c : Chain ℚ}, c.Checked → (∀ p ∈ c.pools, p.Excuses E) →
      ∀ l ∈ c.links, (l.pool.rollCounted t).FailsWith E
  | _, .head op hp, hE, l, hl => by
    rw [Chain.pools] at hE
    rw [Chain.links_head, List.mem_singleton] at hl
    rw [hl]
    exact Pool.Checked.rollCounted_failsWith ht hp hE
  | _, .append op hf hp, hE, l, hl => by
    rw [Chain.pools, List.forall_mem_append] at hE
    rw [Chain.links_append, List.mem_append, List.mem_singleton] at hl
    rcases hl with hl | rfl
    · exact Chain.Checked.links_failsWith ht hf hE.1 l hl
    · exact Pool.Checked.rollCounted_failsWith ht hp hE.2

end

/-- A recipe that fails only where one of the pools `ps` is to roll more dice than a pool may
roll, and that always succeeds if the counts of none of them can be so large. -/
structure RollM.FailsByCount {β : Type} (x : RollM σ ℚ β) (ps : List (Pool ℚ)) : Prop where
  /-- The pool at fault, and the count that it rolled. -/
  error : ∀ s e, (x s).outcome = .error e →
    ∃ p ∈ ps, ∃ n, e = .countTooLarge p n ∧ (Pool.maxRolls : ℚ) < n ∧ n ≤ (p.counts noCustom).high
  ok : (∀ p ∈ ps, (p.counts noCustom).high ≤ Pool.maxRolls) → ∀ s, ∃ b, (x s).outcome = .ok b

/-- A recipe fails by counts if it fails with whatever error too large counts are excused by. -/
theorem RollM.failsByCount {β : Type} {x : RollM σ ℚ β} {ps : List (Pool ℚ)}
    (h : ∀ E : RollError ℚ → Prop, (∀ p ∈ ps, p.Excuses E) → x.FailsWith E) :
    x.FailsByCount ps where
  error := h _ fun p hp n hlarge hhigh => ⟨p, hp, n, rfl, hlarge, hhigh⟩
  ok hsmall s := by
    refine (h (fun _ => False) fun p hp n hlarge hhigh => ?_).exists_ok (fun _ => id) s
    exact absurd (hhigh.trans (hsmall p hp)) (not_le.2 hlarge)

/-- **Checked dice roll.**  At a table that answers in range, a die without custom dice that
the checked builders made fails to roll only if a pool in it rolls a count above
`Pool.maxRolls`; it always rolls if the counts of none of its pools reach so far.  The same
holds of pools whose rolls are kept apart, and of chains that are rolled step by step. -/
theorem checked_failsByCount (ht : t.AnswersInRange) :
    (∀ d : Die ℚ, d.Checked → (d.roll t).FailsByCount d.pools) ∧
      (∀ p : Pool ℚ, p.Checked → (p.roll t).FailsByCount p.pools ∧
        (p.rollSeparately t).FailsByCount p.pools) ∧
      ∀ c : Chain ℚ, c.Checked → (c.roll t).FailsByCount c.pools ∧
        (c.rollSteps t).FailsByCount c.pools := by
  refine ⟨fun d hd => RollM.failsByCount fun E hE => hd.roll_failsWith ht hE,
    fun p hp => ⟨RollM.failsByCount fun E hE => ?_, RollM.failsByCount fun E hE => ?_⟩,
    fun c hc => ⟨RollM.failsByCount fun E hE => ?_, RollM.failsByCount fun E hE => ?_⟩⟩
  · exact (hp.rollCounted_failsWith ht hE).bind fun r => RollM.failsWith_pure _ E
  · exact .of_agree (Pool.rollSeparately_agrees_rollCounted t p) (hp.rollCounted_failsWith ht hE)
  · exact Chain.roll_failsWith (hc.links_failsWith ht hE)
  · exact .of_agree (c.rollSteps_agrees_roll t) (Chain.roll_failsWith (hc.links_failsWith ht hE))

/-- The hypotheses of `checked_failsByCount` are satisfiable: as many eight-sided dice as four
six-sided ones show, divided by a two-sided one, always roll; and up to two million dice fail
where the count comes out largest. -/
theorem checked_failsByCount_quotient :
    let quotient : Chain ℚ :=
      (Chain.ofPool (.counted (.ofInt 4) (.uniform (.d 6 (by decide))))).append .divide
        (.single (.uniform (.d 2 (by decide))))
    let dice : Die ℚ := .pool (.counted (.chain quotient) (.uniform (.d 8 (by decide))))
    let many : Die ℚ := .pool (.counted (.uniform (.d 2000000 (by decide))) (.ofInt 1))
    let t : Table Source ℚ := .ofSource Source.nextInt
    t.AnswersInRange ∧ dice.Checked ∧ many.Checked ∧ (∀ s, ∃ x, (dice.roll t s).outcome = .ok x) ∧
      ∃ p ∈ many.pools, ∃ n, (many.roll t (.steps 2000000 0)).outcome = .error (.countTooLarge p n) ∧
        (Pool.maxRolls : ℚ) < n := by
  intro quotient dice many t
  have ht : t.AnswersInRange := fun _ _ s _ h _ => Source.nextInt_mem h s
  have ofInt (n : ℤ) : (Die.ofInt n : Die ℚ).Checked := .fixed rfl
  have hquotient : quotient.Checked :=
    .append .divide (.head .plus (.counted (ofInt 4) (.uniform _) (if_neg (by decide +kernel))))
      (.single (.uniform _))
  have hdice : dice.Checked :=
    .pool (.counted (.chain hquotient) (.uniform _) (if_neg (by decide +kernel)))
  have hmany : many.Checked :=
    .pool (.counted (.uniform _) (ofInt 1) (if_neg (by decide +kernel)))
  refine ⟨ht, hdice, hmany, ((checked_failsByCount ht).1 dice hdice).ok (by decide +kernel), ?_⟩
  cases h : (many.roll t (.steps 2000000 0)).outcome with
  | ok x =>
    have hfail : (many.roll t (.steps 2000000 0)).outcome.toOption = none := by decide +kernel
    rw [h] at hfail
    cases hfail
  | error e =>
    obtain ⟨p, hp, n, rfl, hlarge, -⟩ := ((checked_failsByCount ht).1 many hmany).error _ e h
    exact ⟨p, hp, n, rfl, hlarge⟩

end DiceFormula
