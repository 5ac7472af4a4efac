/-
# Decimal literals and digits

Numbers are written in decimal, so reading and writing digits comes first.  A
literal such as `-2.50` is kept as it is written, without choosing a machine
number for it:

| literal | sign | digits | places |
| --- | --- | ---: | ---: |
| `12` | plus | 12 | 0 |
| `-2.50` | minus | 250 | 2 |
| `.5` | plus | 5 | 1 |
| `-0` | minus | 0 | 0 |

Its value is `± digits / 10 ^ places`.  The sign is a field of its own, since
negative zero is a number of its own in binary arithmetic.
-/

namespace DiceFormula

/-- What a digit is worth that has `k` digits to its right, which is `10 ^ k`. -/
def placeValue (k : Nat) : Nat := Nat.pow 10 k

/-- A decimal literal: its sign, all of its digits read as one number, and how
many of them stand behind the point. -/
structure Decimal where
  negative : Bool
  digits : Nat
  places : Nat
deriving DecidableEq, Repr

namespace Decimal

/-- The literal with the digits `whole` before and `fraction` behind its point. -/
def ofParts (negative : Bool) (whole fraction : List Char) : Decimal where
  negative := negative
  digits := Nat.ofDigitChars 10 (whole ++ fraction) 0
  places := fraction.length

/-- The literal of a whole number. -/
def ofInt (n : Int) : Decimal where
  negative := decide (n < 0)
  digits := n.natAbs
  places := 0

/-- The exact value of a literal. -/
def toRat (d : Decimal) : Rat :=
  let magnitude := mkRat d.digits (placeValue d.places)
  if d.negative then -magnitude else magnitude

end Decimal

namespace Digits

/-- The digits of a natural number, without leading zeros. -/
def ofNat (n : Nat) : List Char := Nat.toDigits 10 n

/-- The digits of an integer, behind a minus sign if it is negative. -/
def ofInt : Int → List Char
  | .ofNat n => ofNat n
  | .negSucc n => '-' :: ofNat (n + 1)

/-- The number whose digits are `cs`. -/
def toNat (cs : List Char) : Nat := Nat.ofDigitChars 10 cs 0

/-- **Digits read back.** -/
theorem toNat_ofNat (n : Nat) : toNat (ofNat n) = n :=
  Nat.ofDigitChars_ten_toDigits

theorem isDigit_of_mem_ofNat {n : Nat} {c : Char} (h : c ∈ ofNat n) : c.isDigit = true :=
  Nat.isDigit_of_mem_toDigits (by decide) (by decide) h

theorem ofNat_ne_nil (n : Nat) : ofNat n ≠ [] := Nat.toDigits_ne_nil

/-- The digits of `n`, filled up with zeros on the left to at least `width`. -/
def padded (width n : Nat) : List Char :=
  let ds := ofNat n
  List.replicate (width - ds.length) '0' ++ ds

/-- `n / 10 ^ places` with exactly that many digits behind the point; without
places there is no point. -/
def pointed (places n : Nat) : List Char :=
  match places with
  | 0 => ofNat n
  | k + 1 => ofNat (n / placeValue (k + 1)) ++ '.' :: padded (k + 1) (n % placeValue (k + 1))

end Digits

/-- The ends of the integers that fit into 64 bits. -/
def smallestInt : Int := -0x8000000000000000

@[inherit_doc smallestInt]
def largestInt : Int := 0x7fffffffffffffff

end DiceFormula
