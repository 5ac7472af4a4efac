/-
# Comparing dice

Two dice are equal when they are built alike from equal values.  Values compare
as numbers, custom dice by their handles.  A link and a chain are different kinds
of die, and so are a chain and the die that it rolls.
-/

import DiceFormula.Die.Basic

namespace DiceFormula

variable {α : Type} [Scalar α]

mutual

def Die.beq : Die α → Die α → Bool
  | .fixed x, .fixed y => x == y
  | .uniform u, .uniform v => u == v
  | .pool p, .pool q => p.beq q
  | .link c, .link d => c.beq d
  | .chain c, .chain d => c.beq d
  | .custom k, .custom l => k.handle == l.handle
  | _, _ => false

def Pool.beq : Pool α → Pool α → Bool
  | .single x, .single y => x.beq y
  | .counted m x, .counted n y => x.beq y && m.beq n
  | _, _ => false

def Chain.beq : Chain α → Chain α → Bool
  | .head o p, .head o' q => o == o' && p.beq q
  | .append c o p, .append d o' q => o == o' && p.beq q && c.beq d
  | _, _ => false

end

instance : BEq (Die α) := ⟨Die.beq⟩
instance : BEq (Pool α) := ⟨Pool.beq⟩
instance : BEq (Chain α) := ⟨Chain.beq⟩

end DiceFormula
