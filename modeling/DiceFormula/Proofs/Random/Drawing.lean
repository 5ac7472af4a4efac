/-
# Drawing from a generator

Whoever draws from a generator takes its next word, and perhaps, depending on that word, one
more, until there is a result.  A `Drawing` is the tree of what is done with each word.  How many
words it takes may differ from one generator to another, since words that are no good are refused.

Whatever is drawn, the words are the next ones of the stream, and the generator stands behind
the last of them afterwards (`Drawing.words_run` and `Drawing.generator_run`).  This is all that
drawing does to a generator, and the draws of a program are no more than that:

| drawn at a seeded source | a drawing by |
| --- | --- |
| two words | `isDrawn_next64` |
| an integer from a range | `Source.nextInt_isDrawn` |
| a die of any form | `Die.roll_isDrawn` |
-/

import DiceFormula.Proofs.Roll.Compositional
import DiceFormula.Random.Source

namespace DiceFormula

/-- What is done with the next words of a generator: there is a result, or one more word is
taken. -/
inductive Drawing (β : Type) where
  | done (result : β)
  | word (next : UInt32 → Drawing β)

/-- The words that were taken for a result. -/
structure Answer (β : Type) where
  words : List UInt32
  result : β
deriving DecidableEq

variable {α β γ : Type}

namespace Drawing

/-- Draws from a generator. -/
def run : Drawing β → Generator → Answer β × Generator
  | done result, g => (⟨[], result⟩, g)
  | word next, g =>
    let (w, g) := g.next32
    let (answer, g) := (next w).run g
    (⟨w :: answer.words, answer.result⟩, g)

theorem run_word (next : UInt32 → Drawing β) (g : Generator) :
    (word next).run g =
      (⟨g.next32.1 :: ((next g.next32.1).run g.next32.2).1.words,
        ((next g.next32.1).run g.next32.2).1.result⟩, ((next g.next32.1).run g.next32.2).2) := rfl

/-- **A drawing takes the next words of the stream.** -/
theorem words_run (d : Drawing β) (g : Generator) :
    (d.run g).1.words =
      (List.range' g.position (d.run g).1.words.length).map (Generator.wordAt g.key) := by
  induction d generalizing g with
  | done result => rfl
  | word next ih =>
    rw [run_word, List.length_cons, List.range'_succ, List.map_cons, g.next32_eq]
    exact congrArg _ (ih _ _)

/-- **It leaves the generator behind them.** -/
theorem generator_run (d : Drawing β) (g : Generator) :
    (d.run g).2 = .place g.key (g.position + (d.run g).1.words.length) := by
  induction d generalizing g with
  | done result => exact g.eq_place
  | word next ih =>
    rw [run_word, List.length_cons, ← Nat.add_assoc, Nat.add_right_comm, g.next32_eq]
    exact ih _ _

/-- Goes on drawing with a result. -/
def bind : Drawing β → (β → Drawing γ) → Drawing γ
  | done result, f => f result
  | word next, f => word fun w => (next w).bind f

/-- One drawing goes on where the other one stopped. -/
theorem run_bind (d : Drawing β) (f : β → Drawing γ) (g : Generator) :
    ((d.bind f).run g).1.result = ((f (d.run g).1.result).run (d.run g).2).1.result ∧
      ((d.bind f).run g).2 = ((f (d.run g).1.result).run (d.run g).2).2 := by
  induction d generalizing g with
  | done result => exact ⟨rfl, rfl⟩
  | word next ih => exact ih _ _

end Drawing

/-! ### Integers -/

/-- What is done to a generator is a drawing from it. -/
def IsDrawn (f : Generator → β × Generator) : Prop :=
  ∃ d : Drawing β, ∀ g, f g = ((d.run g).1.result, (d.run g).2)

theorem isDrawn_pure (b : β) : IsDrawn fun g => (b, g) := ⟨.done b, fun _ => rfl⟩

theorem isDrawn_next32 : IsDrawn Generator.next32 := ⟨.word .done, fun _ => rfl⟩

theorem IsDrawn.bind {f : Generator → β × Generator} {k : β → Generator → γ × Generator}
    (hf : IsDrawn f) (hk : ∀ b, IsDrawn (k b)) : IsDrawn fun g => k (f g).1 (f g).2 := by
  obtain ⟨d, hd⟩ := hf
  obtain ⟨e, he⟩ := Classical.axiomOfChoice hk
  refine ⟨d.bind e, fun g => ?_⟩
  obtain ⟨hresult, hgenerator⟩ := d.run_bind e g
  show k (f g).1 (f g).2 = _
  rw [hd, he, hresult, hgenerator]

theorem isDrawn_next64 : IsDrawn Generator.next64 :=
  isDrawn_next32.bind (k := fun low g =>
    (g.next32.1.toUInt64 <<< 32 ||| low.toUInt64, g.next32.2)) fun low =>
      isDrawn_next32.bind fun high => isDrawn_pure (high.toUInt64 <<< 32 ||| low.toUInt64)

namespace Draw64

variable {next : Generator → UInt64 × Generator}

/-- Words are refused one after the other until one is good. -/
theorem isDrawn_below (h : IsDrawn next) (range limit : Nat) :
    IsDrawn (below next range limit) := by
  induction limit with
  | zero => exact h.bind fun v => isDrawn_pure (upper (v.toNat * range))
  | succ limit ih =>
    refine h.bind (k := fun v g => if lower (v.toNat * range) < zone range
      then (upper (v.toNat * range), g) else below next range limit g) fun v => ?_
    by_cases hgood : lower (v.toNat * range) < zone range
    · simp only [if_pos hgood]
      exact isDrawn_pure _
    · simp only [if_neg hgood]
      exact ih

theorem isDrawn_between (h : IsDrawn next) (limit : Nat) (low high : Int) :
    IsDrawn (between next limit low high) := by
  unfold between
  by_cases hempty : high ≤ low
  · simp only [if_pos hempty]
    exact isDrawn_pure low
  · simp only [if_neg hempty]
    exact (isDrawn_below h _ limit).bind fun k => isDrawn_pure (low + k)

end Draw64

/-! ### Dice -/

/-- The outcome of a run and its events, last one first. -/
abbrev Told (α β : Type) : Type := Except (RollError α) β × List (Event α)

/-- A drawing does to a generator what a recipe does to a source seeded with it. -/
def Drawing.Makes (d : Drawing (Told α β)) (x : RollM Source α β) : Prop :=
  ∀ g, x (.seeded g) = ⟨(d.run g).1.result.1, .seeded (d.run g).2, (d.run g).1.result.2⟩

/-- What a recipe does at a seeded source is a drawing. -/
def RollM.IsDrawn (x : RollM Source α β) : Prop := ∃ d : Drawing (Told α β), d.Makes x

/-- Goes on with the result of a run, unless it failed. -/
def Drawing.resume (e : β → Drawing (Told α γ)) : Told α β → Drawing (Told α γ)
  | (.ok b, es) => (e b).bind fun told => .done (told.1, told.2 ++ es)
  | (.error err, es) => .done (.error err, es)

/-- **An integer from a range is drawn.** -/
theorem Source.nextInt_isDrawn (low high : Int) :
    ∃ d : Drawing Int, ∀ g,
      Source.nextInt low high (.seeded g) = ((d.run g).1.result, .seeded (d.run g).2) := by
  obtain ⟨d, hd⟩ := Draw64.isDrawn_between isDrawn_next64 patience low high
  refine ⟨d, fun g => ?_⟩
  rw [nextInt, hd]

/-- After an error nothing more is drawn. -/
theorem RollM.IsDrawn.bind {x : RollM Source α β} {f : β → RollM Source α γ} (hx : x.IsDrawn)
    (hf : ∀ b, (f b).IsDrawn) : (x >>= f).IsDrawn := by
  obtain ⟨d, hd⟩ := hx
  obtain ⟨e, he⟩ := Classical.axiomOfChoice hf
  refine ⟨d.bind (Drawing.resume e), fun g => ?_⟩
  obtain ⟨hresult, hgenerator⟩ := d.run_bind (Drawing.resume e) g
  rw [bind_apply, hd, hresult, hgenerator]
  rcases (d.run g).1.result with ⟨err | b, es⟩
  · rfl
  · obtain ⟨hresult', hgenerator'⟩ :=
      (e b).run_bind (fun told => .done (told.1, told.2 ++ es)) (d.run g).2
    rw [Drawing.resume, hresult', hgenerator']
    dsimp only
    rw [he]
    rfl

/-- **A recipe is a drawing if its parts are.** -/
theorem RollM.isDrawn_compositional :
    RollM.Compositional fun β (x : RollM Source α β) => x.IsDrawn where
  pure b := ⟨.done (.ok b, []), fun _ => rfl⟩
  fail e := ⟨.done (.error e, []), fun _ => rfl⟩
  note n := ⟨.done (.ok (), [.note n]), fun _ => rfl⟩
  bind := .bind

section

variable [Scalar α] {t : Table Source α}

/-- A table takes its integers from the source, and its custom dice do nothing else either. -/
structure Table.IsDrawn (t : Table Source α) : Prop where
  nextInt : t.nextInt = Source.nextInt
  custom : ∀ k, (t.rollCustom k).IsDrawn

theorem Table.isDrawn_ofSource : (Table.ofSource Source.nextInt : Table Source α).IsDrawn where
  nextInt := rfl
  custom k := by
    -- Without custom dice there is an error, whatever the source is.
    by_cases hbounds : (Bounds.hull [] : Bounds α).high < (Bounds.hull [] : Bounds α).low
    · have hfail : (Table.ofSource Source.nextInt : Table Source α).rollCustom k =
          RollM.fail (.customInverted k) := funext fun s => if_pos hbounds
      rw [hfail]
      exact RollM.isDrawn_compositional.fail _
    · have hfail : (Table.ofSource Source.nextInt : Table Source α).rollCustom k =
          RollM.fail (.refused k.name) := funext fun s => if_neg hbounds
      rw [hfail]
      exact RollM.isDrawn_compositional.fail _

theorem Table.IsDrawn.draw (ht : t.IsDrawn) (low high : Int) : (t.draw low high).IsDrawn := by
  obtain ⟨d, hd⟩ := Source.nextInt_isDrawn low high
  let told (n : Int) : Told α Int := (.ok n, [.draw ⟨low, high, n⟩])
  refine ⟨d.bind fun n => .done (told n), fun g => ?_⟩
  obtain ⟨hresult, hgenerator⟩ := d.run_bind (fun n => .done (told n)) g
  rw [Table.draw, ht.nextInt, hd, hresult, hgenerator]
  rfl

/-- **A die of any form is drawn.** -/
theorem Die.roll_isDrawn (ht : t.IsDrawn) (d : Die α) : (d.roll t).IsDrawn :=
  d.roll_of_leaves RollM.isDrawn_compositional
    ⟨fun _ _ => ht.draw _ _, fun k _ => ht.custom k⟩

end
end DiceFormula
