/-
# Replaying draws

At the table `Replay.table` the state is a list of integers that are still to be
drawn, and each draw takes the next one.  `x.Replays script b` says that this makes
`x` give `b` when its draws are answered with `script`: it makes as many draws as
there are integers in `script`, all of them in range, and leaves what follows them for
others.

So the script of two recipes, one after the other, is made of their two scripts
(`Replays.bind`), and a value that a recipe can give is one that it replays for some
script (`RollM.CanGive`).
-/

import DiceFormula.Proofs.Roll.Agreement

namespace DiceFormula

variable {α β γ : Type}

namespace Replay

/-- The next integer of a script; behind its end the low end of the range. -/
def next (low _high : Int) : List Int → Int × List Int
  | [] => (low, [])
  | n :: rest => (n, rest)

/-- The table that replays a script; it knows no custom dice. -/
def table [Scalar α] : Table (List Int) α := .ofSource next

end Replay

namespace RollM

/-- A run of `x` that draws the integers `script`, all in range, gives `b`. -/
structure Replays (x : RollM (List Int) α β) (script : List Int) (b : β) : Prop where
  outcome : ∀ rest, (x (script ++ rest)).outcome = .ok b
  state : ∀ rest, (x (script ++ rest)).state = rest
  results : ∀ rest, (x (script ++ rest)).draws.map Draw.result = script
  in_range : ∀ rest, ∀ d ∈ (x (script ++ rest)).draws, d.low ≤ d.result ∧ d.result < d.high

theorem replays_pure (b : β) : (pure b : RollM (List Int) α β).Replays [] b :=
  ⟨fun _ => rfl, fun _ => rfl, fun _ => rfl, fun _ _ h => absurd h List.not_mem_nil⟩

theorem replays_note (n : Note α) : (note n : RollM (List Int) α Unit).Replays [] () :=
  ⟨fun _ => rfl, fun _ => rfl, fun _ => rfl, fun _ _ h => absurd h List.not_mem_nil⟩

theorem replays_draw [Scalar α] {low high n : Int} (h : low ≤ n ∧ n < high) :
    (Replay.table.draw low high : RollM (List Int) α Int).Replays [n] n where
  outcome _ := rfl
  state _ := rfl
  results _ := rfl
  in_range _ d hd := by
    obtain rfl := List.mem_singleton.1 hd
    exact h

theorem Replays.bind {x : RollM (List Int) α β} {f : β → RollM (List Int) α γ}
    {script script' : List Int} {b : β} {c : γ} (hx : x.Replays script b)
    (hf : (f b).Replays script' c) : (x >>= f).Replays (script ++ script') c := by
  have run : ∀ rest, (x >>= f) (script ++ script' ++ rest) =
      (f b (script' ++ rest)).after (x (script ++ (script' ++ rest))).events := by
    intro rest
    have ho := hx.outcome (script' ++ rest)
    have hs := hx.state (script' ++ rest)
    rw [List.append_assoc, bind_apply]
    rcases h : x (script ++ (script' ++ rest)) with ⟨o, s, es⟩
    rw [h] at ho hs
    obtain rfl : o = .ok b := ho
    obtain rfl : s = script' ++ rest := hs
    rfl
  have draws : ∀ rest, ((x >>= f) (script ++ script' ++ rest)).draws =
      (x (script ++ (script' ++ rest))).draws ++ (f b (script' ++ rest)).draws := by
    intro rest
    rw [run, Run.draws_after]
    rfl
  constructor
  · intro rest
    rw [run]
    exact hf.outcome rest
  · intro rest
    rw [run]
    exact hf.state rest
  · intro rest
    rw [draws, List.map_append, hx.results, hf.results]
  · intro rest d hd
    rw [draws, List.mem_append] at hd
    exact hd.elim (hx.in_range _ d) (hf.in_range _ d)

/-- A result that the recipe has for some draws in range. -/
def CanGive (x : RollM (List Int) α β) (b : β) : Prop := ∃ script, x.Replays script b

namespace CanGive

protected theorem pure (b : β) : (pure b : RollM (List Int) α β).CanGive b :=
  ⟨[], replays_pure b⟩

theorem note (n : Note α) : (RollM.note n : RollM (List Int) α Unit).CanGive () :=
  ⟨[], replays_note n⟩

theorem draw [Scalar α] {low high n : Int} (h : low ≤ n ∧ n < high) :
    (Replay.table.draw low high : RollM (List Int) α Int).CanGive n :=
  ⟨[n], replays_draw h⟩

theorem bind {x : RollM (List Int) α β} {f : β → RollM (List Int) α γ} {b : β} {c : γ}
    (hx : x.CanGive b) (hf : (f b).CanGive c) : (x >>= f).CanGive c := by
  obtain ⟨script, hx⟩ := hx
  obtain ⟨script', hf⟩ := hf
  exact ⟨script ++ script', hx.bind hf⟩

/-- As many runs as there are values in a list can have these results, one after the
other, and thus their sum. -/
theorem total [Scalar α] {x : RollM (List Int) α α} {as : List α} (h : ∀ a ∈ as, x.CanGive a) :
    (RollM.total as.length x).CanGive (Scalar.sum as) := by
  suffices ∀ sum : α, (RollM.times (fun sum => do return sum + (← x)) as.length sum).CanGive
      (as.foldl (· + ·) sum) from this Scalar.neutral
  induction as with
  | nil =>
    intro sum
    exact .pure sum
  | cons a as ih =>
    intro sum
    rw [List.length_cons, times_succ, List.foldl_cons]
    exact ((h a List.mem_cons_self).bind (.pure (sum + a))).bind
      (ih (fun b hb => h b (List.mem_cons_of_mem _ hb)) (sum + a))

end CanGive
end RollM
end DiceFormula
