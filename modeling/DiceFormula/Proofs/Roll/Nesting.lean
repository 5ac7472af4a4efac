/-
# A chain at the head of a chain

A chain is a die, and another chain may begin with it.  The notation has no grouping: the formula
of a chain prints at the head without parentheses, and the links behind it then read as links of
the inner chain.  That is safe.  The chain that begins with a chain `c`, and `c` itself, followed
by the same links, have the same bounds and the same formula, promise whole rolls alike, and roll
alike (`Chain.extend_ofDie_chain`).

There is one exception.  The nested chain is rolled once, while the last pool of `c` may roll more
dice, and an each operation right behind them tells the difference.  Any other operation passes
over the number of rolls in front of it, and leaves that of its own pool.  So from the first link
on both chains are at the same range (`Chain.bounds_extend_congr`), and at the same total and number
of rolls (`joinLink_agrees`).
-/

import DiceFormula.Die.Formula
import DiceFormula.Proofs.Die.Grouping
import DiceFormula.Proofs.Roll.Agreement
import DiceFormula.Random.Source

namespace DiceFormula

/-- The formula of a link, in front of `rest`. -/
def Link.write (l : Link ℚ) (rest : List Char) : List Char :=
  if l.operation.isEach then '(' :: l.operation.symbol :: l.pool.write (')' :: rest)
  else l.operation.symbol :: l.pool.write rest

namespace Chain

/-! ### Bounds, formulas and whole rolls -/

/-- **Bounds behind a nesting:** the head has the bounds of the chain inside, and the links go on
from there. -/
theorem bounds_extend_ofDie_chain (custom : CustomDie → Bounds ℚ) (c : Chain ℚ)
    {ls : List (Link ℚ)} (h : ∀ l ∈ ls.head?, l.operation.isEach = false) :
    ((ofDie (.chain c)).extend ls).bounds custom = (c.extend ls).bounds custom := by
  have hpool : (Pool.single (.chain c)).bounds custom = c.bounds custom :=
    (Pool.bounds_single custom (.chain c)).trans (Die.bounds_chain custom c)
  have hhead : (ofDie (.chain c)).bounds custom = c.bounds custom := by
    rw [ofDie, bounds_ofPool (by rw [hpool]; exact c.low_le_high custom), hpool]
  refine bounds_extend_congr hhead fun l hl heach => ?_
  rw [h l hl] at heach
  cases heach

/-- Links are printed behind a chain. -/
theorem write_extend (c : Chain ℚ) (ls : List (Link ℚ)) (rest : List Char) :
    (c.extend ls).write rest = c.write (ls.foldr Link.write rest) := by
  induction ls generalizing c with
  | nil => rfl
  | cons l ls ih =>
    have hlinks := ih (c.append l.operation l.pool)
    rw [write] at hlinks
    exact hlinks

/-- A chain only rolls whole values if it does so up to some link, and all others do. -/
theorem isWhole_extend (c : Chain ℚ) (ls : List (Link ℚ)) : (c.extend ls).isWhole =
    (c.isWhole && ls.all fun l => l.operation != .divide && l.pool.isWhole) := by
  induction ls generalizing c with
  | nil => exact (Bool.and_true _).symm
  | cons l ls ih =>
    have hlinks := ih (c.append l.operation l.pool)
    rw [isWhole, Bool.and_comm _ c.isWhole, Bool.and_assoc] at hlinks
    exact hlinks

end Chain

/-! ### Rolls -/

section Rolls

variable {σ : Type}

/-- Rolls links one after the other, and joins them to the total and the count before. -/
def Link.joinAll (t : Table σ ℚ) (ls : List (Link ℚ)) (before : ℚ × ℕ) : RollM σ ℚ (ℚ × ℕ) :=
  RollM.fold joinLink (ls.map fun l => (l.operation, l.pool.rollCounted t)) before

/-- **A link joins its pool to the same total alike,** unless it counts the rolls in front. -/
theorem joinLink_agrees {op : Operation} (h : op.isEach = false) (pool : RollM σ ℚ (ℚ × ℕ))
    {a b : ℚ × ℕ} (hab : a.1 = b.1) :
    RollM.Agree Eq Eq (joinLink a (op, pool)) (joinLink b (op, pool)) := by
  obtain ⟨x, m⟩ := a
  obtain ⟨_, n⟩ := b
  obtain rfl := hab
  refine (RollM.Agree.self (fun _ => rfl) pool).bind ?_
  rintro ⟨value, rolled⟩ _ rfl
  refine .note_bind (.bind_note (.pure ?_))
  exact Prod.ext (Operation.combine_of_not_isEach h _ _ _ _) rfl

/-- Links behind the same total join to the same total, unless the first of them counts the rolls
in front. -/
theorem Link.joinAll_agrees (t : Table σ ℚ) {ls : List (Link ℚ)}
    (h : ∀ l ∈ ls.head?, l.operation.isEach = false) {a b : ℚ × ℕ} (hab : a.1 = b.1) :
    RollM.Agree Eq (fun x y => x.1 = y.1) (joinAll t ls a) (joinAll t ls b) := by
  cases ls with
  | nil => exact .pure hab
  | cons l ls =>
    rw [joinAll, joinAll, List.map_cons, RollM.fold_cons, RollM.fold_cons]
    refine (joinLink_agrees (h l rfl) _ hab).bind ?_
    rintro r _ rfl
    exact (RollM.Agree.self (fun _ => rfl) _).mono fun _ _ heq => congrArg Prod.fst heq

/-- A single roll is its own total. -/
theorem RollM.total_one (x : RollM σ ℚ ℚ) : total 1 x = x := by
  simp only [total, times_succ, Scalar.neutral_rat, zero_add, bind_pure]
  exact bind_pure x

namespace Chain

theorem roll_eq_joinAll (t : Table σ ℚ) (c : Chain ℚ) :
    c.roll t = Link.joinAll t c.links (Scalar.ofInt 0, 1) >>= fun r => pure r.1 := rfl

theorem roll_extend (t : Table σ ℚ) (c : Chain ℚ) (ls : List (Link ℚ)) :
    (c.extend ls).roll t = Link.joinAll t c.links (Scalar.ofInt 0, 1) >>= fun before =>
      Link.joinAll t ls before >>= fun r => pure r.1 := by
  rw [roll_eq_joinAll, links_extend, Link.joinAll, List.map_append, RollM.fold_append, bind_assoc]
  rfl

/-- **The head of a nesting:** behind it, the total is the value of the chain inside. -/
theorem joinAll_ofDie_chain_agrees (t : Table σ ℚ) (c : Chain ℚ) :
    RollM.Agree Eq (fun x y => x.1 = y.1)
      (Link.joinAll t (ofDie (.chain c)).links (Scalar.ofInt 0, 1))
      (Link.joinAll t c.links (Scalar.ofInt 0, 1)) := by
  have hpool : RollM.Agree Eq (fun x y => x.1 = y.1) ((Pool.single (.chain c)).rollCounted t)
      (Link.joinAll t c.links (Scalar.ofInt 0, 1)) := by
    rw [Pool.rollCounted, Pool.totalOf, RollM.total_one, Die.roll_chain, roll_eq_joinAll,
      bind_assoc]
    refine (RollM.Agree.self (fun _ => rfl) _).bind_pure_right ?_
    rintro r _ rfl
    rw [pure_bind]
    exact .note_bind (.pure rfl)
  have hlinks : (ofDie (.chain c)).links = [⟨.plus, .single (.chain c)⟩] := rfl
  rw [hlinks, Link.joinAll, List.map_singleton, RollM.fold_singleton]
  refine hpool.bind_pure_right ?_
  rintro ⟨value, rolled⟩ r hr
  refine .note_bind ?_
  exact .pure ((zero_add value).trans hr)

/-- **Rolls behind a nesting:** the links start from the same total. -/
theorem roll_extend_ofDie_chain_agrees (t : Table σ ℚ) (c : Chain ℚ) {ls : List (Link ℚ)}
    (h : ∀ l ∈ ls.head?, l.operation.isEach = false) :
    RollM.Agree Eq Eq (((ofDie (.chain c)).extend ls).roll t) ((c.extend ls).roll t) := by
  rw [roll_extend, roll_extend]
  refine (joinAll_ofDie_chain_agrees t c).bind fun a b hab => ?_
  exact (Link.joinAll_agrees t h hab).bind fun _ _ hr => .pure hr

/-- **A nesting at the head is transparent.**  A chain `c`, and the chain that begins with `c` as
a die, followed by the same links: if the first of the links is no each operation, both have the
same bounds, whatever those of the custom dice, the same formula and the same promise of whole
rolls.  At every table and from every state they make the same draws, end in the same state, and
give the same value or the same error. -/
theorem extend_ofDie_chain (c : Chain ℚ) {ls : List (Link ℚ)}
    (h : ∀ l ∈ ls.head?, l.operation.isEach = false) :
    let nested := (ofDie (.chain c)).extend ls
    let flat := c.extend ls
    (∀ custom, nested.bounds custom = flat.bounds custom) ∧ nested.text = flat.text ∧
      nested.isWhole = flat.isWhole ∧
      ∀ (σ : Type) (t : Table σ ℚ) (s : σ), (nested.roll t s).draws = (flat.roll t s).draws ∧
        (nested.roll t s).state = (flat.roll t s).state ∧
        (nested.roll t s).outcome = (flat.roll t s).outcome := by
  intro nested flat
  have hwrite : (ofDie (.chain c)).write = c.write := rfl
  have hwhole : (ofDie (.chain c)).isWhole = c.isWhole := rfl
  refine ⟨fun custom => bounds_extend_ofDie_chain custom c h, ?_, ?_, fun σ t s => ?_⟩
  · rw [text, text, write_extend, write_extend, hwrite]
  · rw [isWhole_extend, isWhole_extend, hwhole]
  · obtain ⟨hdraws, hstate, houtcome⟩ := roll_extend_ofDie_chain_agrees t c h s
    exact ⟨hdraws, hstate, houtcome.eq⟩

/-- The hypothesis of `extend_ofDie_chain` is satisfiable: two dice, minus one, and three more for
the one roll of that one. -/
theorem extend_ofDie_chain_two_dice :
    let c : Chain ℚ := .ofPool (.counted (.fixed 2) (.uniform (.d 6 (by decide))))
    let ls : List (Link ℚ) := [⟨.minus, .single (.fixed 1)⟩, ⟨.eachPlus, .single (.fixed 3)⟩]
    let nested := (ofDie (.chain c)).extend ls
    let t : Table Source ℚ := .ofSource Source.nextInt
    (∀ l ∈ ls.head?, l.operation.isEach = false) ∧ nested.text = "2d6-1(+3)" ∧
      (nested.bounds noCustom).high = 14 ∧
      (nested.roll t (.steps 2 3)).outcome.toOption = some 9 ∧
      (c.extend ls).text = "2d6-1(+3)" ∧ ((c.extend ls).bounds noCustom).high = 14 ∧
      ((c.extend ls).roll t (.steps 2 3)).outcome.toOption = some 9 := by
  intro c ls nested t
  have h : ∀ l ∈ ls.head?, l.operation.isEach = false := by
    rintro l hl
    cases hl
    rfl
  have hformula : nested.text = "2d6-1(+3)" := by decide +kernel
  have hhigh : (nested.bounds noCustom).high = 14 := by decide +kernel
  have hvalue : (nested.roll t (.steps 2 3)).outcome.toOption = some 9 := by decide +kernel
  obtain ⟨hbounds, htext, -, hroll⟩ := extend_ofDie_chain c h
  refine ⟨h, hformula, hhigh, hvalue, htext.symm.trans hformula, ?_, ?_⟩
  · rw [← hbounds]
    exact hhigh
  · rw [← (hroll Source t (.steps 2 3)).2.2]
    exact hvalue

/-- An each operation right behind the nesting sees one roll, and behind the dice it sees two. -/
example :
    let c : Chain ℚ := .ofPool (.counted (.fixed 2) (.uniform (.d 6 (by decide))))
    let ls : List (Link ℚ) := [⟨.eachPlus, .single (.fixed 1)⟩]
    (((ofDie (.chain c)).extend ls).bounds noCustom).high = 13 ∧
      ((c.extend ls).bounds noCustom).high = 14 := by
  decide +kernel

end Chain
end Rolls
end DiceFormula
