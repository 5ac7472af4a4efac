/-
# The formula of a die

Every die prints as the formula that describes it.

| die | formula |
| --- | --- |
| a fixed value | the value, rounded to tenths |
| `1` to `n` | `dn` |
| any other interval | `[min, max]` |
| a pool | its count and then its die, without a sign between them |
| a link | its operator and then its pool, in parentheses for an each operation |

A fixed count prints as the number of dice that are rolled, and not at all if
that is one; the operation of a head is not printed.

Printing is done in front of what follows: `write rest` is the formula and then
`rest`, so the cost is linear, and a law about a printed chain is an induction
over its links.
-/

import DiceFormula.Die.Basic

namespace DiceFormula

variable {α : Type} [Scalar α]

/-- `dn` for the faces `1` to `n`, and the two ends in brackets otherwise. -/
def Uniform.chars (u : Uniform) : List Char :=
  if u.min = 1 then 'd' :: Digits.ofInt u.max
  else '[' :: Digits.ofInt u.min ++ [',', ' '] ++ Digits.ofInt u.max ++ [']']

mutual

/-- The formula of a die, in front of `rest`. -/
def Die.write : Die α → List Char → List Char
  | .fixed value, rest => Scalar.shortText value ++ rest
  | .uniform u, rest => u.chars ++ rest
  | .pool p, rest => p.write rest
  | .link c, rest | .chain c, rest => c.write rest
  | .custom k, rest => k.name.toList ++ rest

/-- The formula of a pool, in front of `rest`. -/
def Pool.write : Pool α → List Char → List Char
  | .single value, rest => value.write rest
  | .counted (.fixed n) value, rest =>
    if Scalar.trunc n ≤ Scalar.ofInt 1 then value.write rest
    else Scalar.text (Scalar.trunc n) ++ value.write rest
  | .counted count value, rest => count.write (value.write rest)

/-- The formula of a chain, in front of `rest`. -/
def Chain.write : Chain α → List Char → List Char
  | .head _ p, rest => p.write rest
  | .append front op p, rest =>
    front.write <|
      if op.isEach then '(' :: op.symbol :: p.write (')' :: rest) else op.symbol :: p.write rest

end

/-- The formula of a die. -/
def Die.text (d : Die α) : String := String.ofList (d.write [])

/-- The formula of a pool. -/
def Pool.text (p : Pool α) : String := String.ofList (p.write [])

/-- The formula of a chain. -/
def Chain.text (c : Chain α) : String := String.ofList (c.write [])

end DiceFormula
