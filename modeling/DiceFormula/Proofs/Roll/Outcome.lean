/-
# What a successful run gives

`x.Gives P` says that every run of the recipe `x` that succeeds, from whatever
state, has a result that satisfies `P`.  It says nothing about runs that fail.

A recipe that is put together from parts gives what its parts give: there is one
rule for each way of putting recipes together.  Repetition keeps an invariant
that may count the repetitions (`Gives.times`), from which the rules for sums
and for lists of results follow.  Pools and chains are such repetitions:
`Pool.totalOf_gives` is the rule for the dice of a pool, and `Chain.roll_gives` that
for the links of a chain.
-/

import DiceFormula.Roll.Basic

namespace DiceFormula

theorem toOption_eq_some_iff {ε β : Type} {e : Except ε β} {b : β} :
    e.toOption = some b ↔ e = .ok b := by
  cases e <;> simp [Except.toOption]

namespace RollM

variable {σ α β γ : Type}

/-- A run of two recipes succeeds when both do, one after the other. -/
theorem outcome_bind_eq_ok {x : RollM σ α β} {f : β → RollM σ α γ} {s : σ} {c : γ} :
    ((x >>= f) s).outcome = .ok c ↔
      ∃ b, (x s).outcome = .ok b ∧ (f b (x s).state).outcome = .ok c := by
  rw [bind_apply]
  rcases x s with ⟨_ | b, s', es⟩ <;> simp [Run.after]

/-- Whenever a run of `x` succeeds, its result satisfies `P`. -/
def Gives (x : RollM σ α β) (P : β → Prop) : Prop :=
  ∀ s b, (x s).outcome = .ok b → P b

theorem gives_pure {P : β → Prop} {b : β} (h : P b) : (pure b : RollM σ α β).Gives P := by
  intro s c hc
  cases hc
  exact h

theorem gives_fail (e : RollError α) (P : β → Prop) :
    (RollM.fail e : RollM σ α β).Gives P := by
  intro s b hb
  cases hb

theorem gives_note (n : Note α) : (note n : RollM σ α Unit).Gives fun _ => True :=
  fun _ _ _ => trivial

theorem fold_map {δ : Type} (f : β → γ → RollM σ α β) (g : δ → γ) (ds : List δ) :
    fold f (ds.map g) = fold (fun b d => f b (g d)) ds := by
  induction ds with
  | nil => rfl
  | cons d ds ih =>
    funext b
    rw [List.map_cons, fold_cons, fold_cons, ih]

theorem fold_singleton (f : β → γ → RollM σ α β) (c : γ) (b : β) : fold f [c] b = f b c :=
  (fold_cons f c [] b).trans (bind_pure _)

/-- A list is gone through by its first part, and then by the rest. -/
theorem fold_append (f : β → γ → RollM σ α β) (cs ds : List γ) (b : β) :
    fold f (cs ++ ds) b = fold f cs b >>= fold f ds := by
  induction cs generalizing b with
  | nil => rw [List.nil_append, fold_nil, pure_bind]
  | cons c cs ih =>
    rw [List.cons_append, fold_cons, fold_cons, bind_assoc]
    exact congrArg _ (funext ih)

/-- The last entry of a list comes last. -/
theorem fold_concat (f : β → γ → RollM σ α β) (cs : List γ) (c : γ) (b : β) :
    fold f (cs ++ [c]) b = fold f cs b >>= fun b => f b c := by
  rw [fold_append, funext (fold_singleton f c)]

namespace Gives

theorem mono {x : RollM σ α β} {P Q : β → Prop} (hx : x.Gives P) (h : ∀ b, P b → Q b) :
    x.Gives Q :=
  fun s b hb => h b (hx s b hb)

theorem bind {x : RollM σ α β} {f : β → RollM σ α γ} {P : β → Prop} {Q : γ → Prop}
    (hx : x.Gives P) (hf : ∀ b, P b → (f b).Gives Q) : (x >>= f).Gives Q := by
  intro s c hc
  obtain ⟨b, hb, hc⟩ := outcome_bind_eq_ok.1 hc
  exact hf b (hx s b hb) _ c hc

theorem and {x : RollM σ α β} {P Q : β → Prop} (hP : x.Gives P) (hQ : x.Gives Q) :
    x.Gives fun b => P b ∧ Q b :=
  fun s b hb => ⟨hP s b hb, hQ s b hb⟩

/-- An invariant that moves along with the entries of a list holds after the last one. -/
theorem fold {δ : Type} {f : β → γ → RollM σ α β} {g : δ → γ → δ} {I : δ → β → Prop}
    {cs : List γ} (step : ∀ c ∈ cs, ∀ k b, I k b → (f b c).Gives (I (g k c))) :
    ∀ k b, I k b → (RollM.fold f cs b).Gives (I (cs.foldl g k)) := by
  induction cs with
  | nil =>
    intro k b h
    rw [fold_nil]
    exact gives_pure h
  | cons c cs ih =>
    intro k b h
    rw [fold_cons, List.foldl_cons]
    exact (step c List.mem_cons_self k b h).bind
      (ih (fun c hc => step c (List.mem_cons_of_mem _ hc)) (g k c))

/-- A step that carries an invariant from `k` to `k + 1`, taken `n` times, carries
it from `k` to `k + n`. -/
theorem times {f : β → RollM σ α β} {I : Nat → β → Prop}
    (step : ∀ k b, I k b → (f b).Gives (I (k + 1))) (n : Nat) :
    ∀ k b, I k b → (RollM.times f n b).Gives (I (k + n)) := by
  induction n with
  | zero =>
    intro k b h
    rw [times_zero]
    exact gives_pure h
  | succ n ih =>
    intro k b h
    rw [times_succ, ← Nat.succ_add_eq_add_succ]
    exact (step k b h).bind (ih (k + 1))

/-- The results of `n` runs: there are `n` of them, and each is what a run gives. -/
theorem collect {x : RollM σ α β} {P : β → Prop} (hx : x.Gives P) (n : Nat) :
    (RollM.collect n x).Gives fun bs => bs.length = n ∧ ∀ b ∈ bs, P b := by
  have step : ∀ k (bs : List β), (bs.length = k ∧ ∀ b ∈ bs, P b) →
      (do return (← x) :: bs).Gives fun bs => bs.length = k + 1 ∧ ∀ b ∈ bs, P b := by
    rintro k bs ⟨rfl, hbs⟩
    exact hx.bind fun b hb => gives_pure ⟨rfl, List.forall_mem_cons.2 ⟨hb, hbs⟩⟩
  have start : ([] : List β).length = 0 ∧ ∀ b ∈ ([] : List β), P b := by simp
  refine (times step n 0 [] start).bind fun bs hbs => gives_pure ?_
  rw [Nat.zero_add] at hbs
  exact ⟨by rw [List.length_reverse, hbs.1], fun b hb => hbs.2 b (List.mem_reverse.1 hb)⟩

/-- An invariant of sums holds of the sum of `n` runs. -/
theorem total [Scalar α] {x : RollM σ α α} {P : α → Prop} {I : Nat → α → Prop}
    (hx : x.Gives P) (start : I 0 Scalar.neutral)
    (step : ∀ k sum a, I k sum → P a → I (k + 1) (sum + a)) (n : Nat) :
    (RollM.total n x).Gives (I n) := by
  have h : ∀ k sum, I k sum → (do return sum + (← x)).Gives (I (k + 1)) :=
    fun k sum hsum => hx.bind fun a ha => gives_pure (step k sum a hsum ha)
  have := times h n 0 _ start
  rwa [Nat.zero_add] at this

end Gives
end RollM

variable {σ α : Type} [Scalar α]

/-- The rolls of a pool's dice, added up: an invariant of sums holds of their sum. -/
theorem Pool.totalOf_gives {p : Pool α} {value : RollM σ α α} {P : α → Prop}
    {I : Nat → α → Prop} (hv : value.Gives P) (start : I 0 Scalar.neutral)
    (step : ∀ k sum x, I k sum → P x → I (k + 1) (sum + x)) (n : Nat) :
    (p.totalOf n value).Gives fun r => I n r.1 ∧ r.2 = n :=
  (RollM.Gives.total hv start step n).bind fun _ hsum =>
    (RollM.gives_note _).bind fun _ _ => RollM.gives_pure ⟨hsum, rfl⟩

/-- The rolls of a chain: an invariant of the total and the number of rolls before, which
moves along with the links, holds after the last link. -/
theorem Chain.roll_gives {δ : Type} {t : Table σ α} {c : Chain α} {g : δ → Link α → δ}
    {I : δ → α × Nat → Prop}
    (step : ∀ l ∈ c.links, ∀ k before, I k before → (l.pool.rollCounted t).Gives fun r =>
      I (g k l) (l.operation.combine before.1 r.1 (Scalar.ofInt before.2), r.2))
    {k : δ} (start : I k (Scalar.ofInt 0, 1)) :
    (c.roll t).Gives fun x => ∃ n, I (c.links.foldl g k) (x, n) := by
  have join : ∀ l ∈ c.links, ∀ k before, I k before →
      (joinLink before (l.operation, l.pool.rollCounted t)).Gives (I (g k l)) :=
    fun l hl k before h => (step l hl k before h).bind fun _ hr =>
      (RollM.gives_note _).bind fun _ _ => RollM.gives_pure hr
  rw [Chain.roll, joinLinks, RollM.fold_map]
  exact (RollM.Gives.fold join k _ start).bind fun r hr => RollM.gives_pure ⟨r.2, hr⟩

end DiceFormula
