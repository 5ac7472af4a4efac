/-
# Exact values and fixed places

A number that an expression or a roll gives is either finite, and then an exact
fraction, or one of the two infinities, or not a number.  Rounding for print is
done on the exact fraction: `Exact.fixedText k` writes the multiple of
`10 ^ -k` that is nearest, and of two equally near ones the even one.
-/

import DiceFormula.Number.Decimal

namespace DiceFormula

/-- The exact value of a number.  Zero keeps its sign. -/
inductive Exact where
  | nan
  | infinite (negative : Bool)
  | finite (negative : Bool) (magnitude : Rat)
deriving DecidableEq

/-- The integer nearest to a fraction that is not negative; a half goes to the
even neighbour. -/
def roundHalfEven (x : Rat) : Nat :=
  let whole := x.num.toNat / x.den
  let rest := x.num.toNat % x.den
  if 2 * rest < x.den then whole
  else if x.den < 2 * rest then whole + 1
  else whole + whole % 2

namespace Exact

/-- A minus sign in front of what is negative. -/
def signed (negative : Bool) (text : List Char) : List Char :=
  if negative then '-' :: text else text

/-- The text of a number with `finiteText` for the finite ones. -/
def textWith (finiteText : Rat → List Char) : Exact → List Char
  | .nan => ['N', 'a', 'N']
  | .infinite negative => signed negative ['i', 'n', 'f']
  | .finite negative magnitude => signed negative (finiteText magnitude)

/-- The number with exactly `places` digits behind the point. -/
def fixedText (places : Nat) : Exact → List Char :=
  textWith fun magnitude => Digits.pointed places (roundHalfEven (magnitude * 10 ^ places))

end Exact
end DiceFormula
