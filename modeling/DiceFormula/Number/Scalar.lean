/-
# The numbers a die can show

Rolls, bounds and fixed values are numbers of one type, and everything else is
written for any such type.  There are two of them: `Float`, double precision,
in which expressions are evaluated, and `Rat`, exact fractions, in which their
laws hold without rounding.

Comparisons are those of the type, so a comparison with what is not a number is
false.  `lesser` and `greater` pass over an operand that is not a number.
-/

import DiceFormula.Number.Binary64

namespace DiceFormula

/-- A type of numbers with the operations that dice need. -/
class Scalar (α : Type) extends Add α, Sub α, Mul α, Div α, LT α, LE α, BEq α where
  decidableLT : DecidableLT α
  decidableLE : DecidableLE α
  /-- The number nearest to an integer. -/
  ofInt : Int → α
  /-- The number nearest to a literal. -/
  ofDecimal : Decimal → α
  /-- The value of a number. -/
  exact : α → Exact
  /-- Whether a number is neither infinite nor not a number. -/
  isFinite : α → Bool
  /-- The integer part, towards zero. -/
  trunc : α → α
  /-- The nearest integer; a half goes away from zero. -/
  round : α → α
  /-- The hull of no numbers at all. -/
  emptyHull : α × α
  /-- The text with the fewest digits that read back. -/
  text : α → List Char
  /-- The text of an entry of a list. -/
  entryText : α → List Char

attribute [reducible, instance] Scalar.decidableLT Scalar.decidableLE

/-- Double precision. -/
instance : Scalar Float where
  decidableLT := inferInstance
  decidableLE := inferInstance
  ofInt := Float.ofInt
  ofDecimal d :=
    let magnitude := Float.ofScientific d.digits true d.places
    if d.negative then -magnitude else magnitude
  exact x := (Binary64.ofFloat x).exact
  isFinite := Float.isFinite
  trunc := Binary64.trunc
  round := Binary64.round
  emptyHull := (1 / 0, -1 / 0)
  text x := (Binary64.ofFloat x).text
  entryText x := (Binary64.ofFloat x).entryText

namespace Fraction

/-- The integer part of a fraction, towards zero. -/
def trunc (x : Rat) : Rat :=
  if x < 0 then -((-x).floor : Rat) else (x.floor : Rat)

/-- The nearest integer; a half goes away from zero. -/
def round (x : Rat) : Rat :=
  if x < 0 then -((-x + 1 / 2).floor : Rat) else ((x + 1 / 2).floor : Rat)

/-- Whole numbers in decimal, all others as a quotient. -/
def text (x : Rat) : List Char :=
  if x.den = 1 then Digits.ofInt x.num else Digits.ofInt x.num ++ '/' :: Digits.ofNat x.den

end Fraction

/-- Exact fractions. -/
instance : Scalar Rat where
  decidableLT := inferInstance
  decidableLE := inferInstance
  ofInt n := n
  ofDecimal := Decimal.toRat
  exact x := if x < 0 then .finite true (-x) else .finite false x
  isFinite _ := true
  trunc := Fraction.trunc
  round := Fraction.round
  emptyHull := (0, 0)
  text := Fraction.text
  entryText := Fraction.text

namespace Scalar

variable {α : Type} [Scalar α]

/-- Whether `x` has no fraction. -/
def isWhole (x : α) : Bool := x - trunc x == ofInt 0

/-- The integer part of a number that is not below one. -/
def toCount (x : α) : Nat :=
  match exact x with
  | .finite false magnitude => max 1 magnitude.floor.toNat
  | _ => 1

theorem one_le_toCount (x : α) : 1 ≤ toCount x := by
  unfold toCount
  split
  · exact Nat.le_max_left 1 _
  · exact Nat.le_refl 1

/-- The smaller of two numbers. -/
def lesser (x y : α) : α := if x ≤ y ∨ ¬ y ≤ y then x else y

/-- The larger of two numbers. -/
def greater (x y : α) : α := if y ≤ x ∨ ¬ y ≤ y then x else y

/-- Negative zero: added to any number it gives that number, its sign included. -/
def neutral : α := ofDecimal ⟨true, 0, 0⟩

/-- The sum of numbers, added from left to right. -/
def sum (xs : List α) : α := xs.foldl (· + ·) neutral

/-- Divisors nearer to zero than `1 / 10000` count as zero. -/
def threshold : α := ofDecimal ⟨false, 1, 4⟩

@[inherit_doc threshold]
def negThreshold : α := ofDecimal ⟨true, 1, 4⟩

@[inherit_doc threshold]
def isNegligible (x : α) : Bool := negThreshold < x && x < (threshold : α)

/-- The number rounded to tenths, a half going away from zero. -/
def toTenths (x : α) : α := round (x * ofInt 10) / ofInt 10

/-- The text of a number rounded to tenths.  The tenth is left out where it is
zero, and so is the sign of zero. -/
def shortText (x : α) : List Char :=
  let tenths := toTenths x
  if tenths == ofInt 0 then ['0']
  else (exact tenths).fixedText (if isWhole tenths then 0 else 1)

end Scalar
end DiceFormula
