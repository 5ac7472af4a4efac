/-
# Bounds that are attained

The bounds of a chain are not only safe.  For the chains that formulas describe, made of
flat pools, both of them are rolled for some draws (`Chain.exists_draws_of_bounds`).  Two
kinds of link need care.  An each operation takes the value and the number of rolls in
front of it at once, so it has to follow a pool that always rolls the same number of
dice.  And a divisor takes its extreme values near zero, so it has to be a sum of whole
dice, or a single fixed value.

Every corner of such a link is rolled, given that the value in front is: the draws for
the front come first, then those for the pool (`Pool.Flat.canGive_corner`).  As the bounds
of a link are two of its corners, the claim follows by induction along the chain
(`Chain.Tight.attained`).
-/

import DiceFormula.Proofs.Die.FlatPool

namespace DiceFormula

/-- A chain of flat pools whose head is a plus, whose each operations follow pools that
always roll the same number of dice, and which divides by dice that are whole, or by
single fixed values. -/
inductive Chain.Tight : Chain ℚ → Prop where
  | head {p} (hp : p.Flat) : Tight (.head .plus p)
  | append {front op p} (hf : front.Tight) (hp : p.Flat)
      (he : op.isEach = true →
        (front.last.pool.counts noCustom).low = (front.last.pool.counts noCustom).high)
      (hd : op = .divide → p.IsDivisor) : Tight (.append front op p)

/-- Both bounds of a range can be rolled, with numbers of rolls in the range. -/
def ChainRange.Attained (r : ChainRange ℚ) (x : RollM (List Int) ℚ (ℚ × ℕ)) : Prop :=
  ∀ e ∈ [r.values.low, r.values.high], ∃ n : ℕ, r.counts.Contains n ∧ x.CanGive (e, n)

namespace Pool.Flat

variable {p : Pool ℚ}

/-- **Every corner of a link can be rolled,** if both bounds of the value in front can: the
draws for the front come first, then those for the pool. -/
theorem canGive_corner (hp : p.Flat) {op : Operation} {r : ChainRange ℚ}
    {front : RollM (List Int) ℚ (ℚ × ℕ)} (hr : r.Attained front)
    (he : op.isEach = true → r.counts.low = r.counts.high) (hd : op = .divide → p.IsDivisor) :
    ∀ e ∈ r.corners (Link.range noCustom ⟨op, p⟩), ∃ n : ℕ, (p.counts noCustom).Contains n ∧
      (front >>= fun before =>
        joinLink before (op, p.rollCounted Replay.table)).CanGive (e, n) := by
  intro e h
  obtain ⟨left, hleft, count, hcount, right, hright, hcorner⟩ := ChainRange.mem_corners.1 h
  obtain ⟨k, hk, hbefore⟩ := hr left hleft
  obtain ⟨x, ⟨n, hn, hroll⟩, hx⟩ := hp.canRoll_operand hd right hright
  have hvalue : op.combine left x (Scalar.ofInt k) = e := by
    rw [hx, ← hcorner]
    cases hop : op.isEach with
    | false => exact Operation.combine_of_not_isEach hop _ _ _ _
    | true =>
      -- The number of rolls in front is always the same.
      have hsame := he hop
      have hcount : count = r.counts.low := by
        rw [← hsame, List.mem_pair, or_self] at hcount
        exact hcount
      have hk : (k : ℚ) = r.counts.low := le_antisymm (hk.2.trans_eq hsame.symm) hk.1
      rw [Scalar.ofInt_rat, Int.cast_natCast, hk, hcount, Link.range]
  refine ⟨n, hn, ?_⟩
  rw [← hvalue]
  exact hbefore.bind (hroll.bind ((RollM.CanGive.note _).bind (.pure _)))

/-- Both bounds of a link can be rolled, since they are two of its corners. -/
theorem attained_step (hp : p.Flat) {op : Operation} {r : ChainRange ℚ}
    {front : RollM (List Int) ℚ (ℚ × ℕ)} (hr : r.Attained front)
    (he : op.isEach = true → r.counts.low = r.counts.high) (hd : op = .divide → p.IsDivisor) :
    (r.step (Link.range noCustom ⟨op, p⟩)).Attained
      (front >>= fun before => joinLink before (op, p.rollCounted Replay.table)) := by
  intro e h
  exact hp.canGive_corner hr he hd e (ChainRange.mem_corners_of_mem_step h)

end Pool.Flat

namespace Chain

/-- The links of a chain, rolled one after the other; gives the total and the number of
rolls of the last one. -/
def rollLinks (c : Chain ℚ) : RollM (List Int) ℚ (ℚ × ℕ) :=
  RollM.fold joinLink (c.links.map fun l => (l.operation, l.pool.rollCounted Replay.table))
    (Scalar.ofInt 0, 1)

/-- The range behind the last link of a chain. -/
def range (c : Chain ℚ) : ChainRange ℚ :=
  (c.links.map (Link.range noCustom)).foldl ChainRange.step .start

theorem rollLinks_append (front : Chain ℚ) (op : Operation) (p : Pool ℚ) :
    (front.append op p).rollLinks =
      front.rollLinks >>= fun before => joinLink before (op, p.rollCounted Replay.table) := by
  rw [rollLinks, links_append, List.map_append]
  exact RollM.fold_concat _ _ _ _

theorem range_append (front : Chain ℚ) (op : Operation) (p : Pool ℚ) :
    (front.append op p).range = front.range.step (Link.range noCustom ⟨op, p⟩) := by
  rw [range, links_append, List.map_append, List.foldl_append]
  rfl

theorem range_counts (c : Chain ℚ) : c.range.counts = c.last.pool.counts noCustom := by
  cases c with
  | head op p => rfl
  | append front op p =>
    rw [range_append]
    rfl

/-- The bounds of a tight chain can be rolled, and so can those of each of its fronts. -/
theorem Tight.attained {c : Chain ℚ} (hc : c.Tight) : c.range.Attained c.rollLinks := by
  induction hc with
  | @head p hp =>
    have start : ChainRange.start.Attained (pure (Scalar.ofInt 0, 1)) := by
      intro e he
      rw [ChainRange.start, Bounds.single, List.mem_pair, or_self] at he
      refine ⟨1, ?_, ?_⟩
      · rw [Nat.cast_one, ← Int.cast_one]
        exact Bounds.contains_single _
      · rw [he]
        exact .pure _
    have h : (ChainRange.start.step (Link.range noCustom ⟨.plus, p⟩)).Attained _ :=
      hp.attained_step start (by rintro ⟨⟩) (by rintro ⟨⟩)
    rwa [← RollM.fold_nil joinLink, ← RollM.fold_concat] at h
  | @append front op p hf hp he hd ih =>
    rw [range_append, rollLinks_append]
    exact hp.attained_step ih (by rwa [range_counts]) hd

/-- **Bounds are attained.**  Every tight chain rolls its lower bound for some draws in
range, and its upper bound for some others. -/
theorem exists_draws_of_bounds {c : Chain ℚ} (hc : c.Tight) :
    ∃ low high : List ℤ, (c.roll Replay.table).Replays low (c.bounds noCustom).low ∧
      (c.roll Replay.table).Replays high (c.bounds noCustom).high := by
  have h : ∀ e ∈ [(c.bounds noCustom).low, (c.bounds noCustom).high],
      (c.roll Replay.table).CanGive e := by
    intro e he
    obtain ⟨n, -, hroll⟩ := hc.attained e he
    exact hroll.bind (.pure _)
  obtain ⟨low, hlow⟩ := h _ List.mem_cons_self
  obtain ⟨high, hhigh⟩ := h _ (List.mem_cons_of_mem _ (List.mem_singleton_self _))
  exact ⟨low, high, hlow, hhigh⟩

/-- The hypothesis of `exists_draws_of_bounds` is satisfiable: `2d6(+3)/[-2, 2]` rolls
`-18` and `18`, with twelve and two threes divided by `-1` and `1`. -/
theorem exists_draws_of_bounds_two_dice :
    let u : Uniform := ⟨-2, 2, by decide, by decide, by decide⟩
    let dice : Pool ℚ := .counted (.fixed 2) (.uniform (.d 6 (by decide)))
    let c : Chain ℚ := ((Chain.ofPool dice).append .eachPlus (.single (.fixed 3))).append
      .divide (.single (.uniform u))
    c.Tight ∧ (c.bounds noCustom).low = -18 ∧ (c.bounds noCustom).high = 18 ∧
      ∃ low high : List ℤ, (c.roll Replay.table).Replays low (c.bounds noCustom).low ∧
        (c.roll Replay.table).Replays high (c.bounds noCustom).high := by
  intro u dice c
  have flat : ∀ d : Die ℚ, d.Simple → (Pool.single d).Flat := fun d hd =>
    ⟨hd, by rintro _ ⟨⟩, by rw [Pool.counts]; decide +kernel⟩
  have two : dice.Flat := by
    refine ⟨.uniform _, ?_, by decide +kernel⟩
    rintro _ ⟨⟩
    exact ⟨.fixed 2, if_neg (by decide +kernel)⟩
  have front : Chain.Tight ((Chain.ofPool dice).append .eachPlus (.single (.fixed 3))) :=
    .append (.head two) (flat _ (.fixed 3)) (fun _ => rfl) (by rintro ⟨⟩)
  have hc : c.Tight := .append front (flat _ (.uniform u)) (by rintro ⟨⟩) fun _ => .inl ⟨u, rfl⟩
  exact ⟨hc, by decide +kernel, by decide +kernel, exists_draws_of_bounds hc⟩

end Chain
end DiceFormula
