/-
# Double precision by its bits

A double is read from its bit pattern as `± significand · 2 ^ exponent`, and
everything that has to be exact is done on these integers: dropping the
fraction, rounding to an integer, and the shortest text.

The *shortest text* of a double has the fewest digits that still lie nearer to
it than to any other double, and of those the nearest ones.  The numbers that
round to `significand · 2 ^ exponent` form an interval; measured in quarters of
the last bit it reaches from `4 s - 2` to `4 s + 2`, or from `4 s - 1` where the
spacing halves below a power of two, and its ends belong to it when the
significand is even.  A grid `10 ^ p` meets an interval around `v` just when one
of the two grid points next to `v` lies in it, so the search tries grids of one,
two, … seventeen digits and these two points on each.
-/

import DiceFormula.Number.Exact

namespace DiceFormula

/-- A double, taken apart.  Finite ones are `± significand · 2 ^ exponent`. -/
inductive Binary64 where
  | nan
  | infinite (negative : Bool)
  | finite (negative : Bool) (significand : Nat) (exponent : Int)
deriving DecidableEq

namespace Binary64

/-- The bit in front of the fraction, `2 ^ 52`.  It is set in all doubles but the
smallest, and is not stored. -/
def leadingBit : Nat := 1 <<< 52

/-- Reads the sign bit, the eleven bits of the exponent and the fifty-two bits
of the fraction. -/
def ofFloat (x : Float) : Binary64 :=
  let bits := x.toBits.toNat
  let negative := bits >>> 63 == 1
  let exponent : Nat := bits >>> 52 % 2048
  let fraction := bits % leadingBit
  if exponent = 2047 then
    if fraction = 0 then .infinite negative else .nan
  else if exponent = 0 then .finite negative fraction (-1074)
  else .finite negative (leadingBit + fraction) ((exponent : Int) - 1075)

/-- `s · 2 ^ e` as a fraction. -/
def scale (s : Nat) : Int → Rat
  | .ofNat k => mkRat (s <<< k : Nat) 1
  | .negSucc k => mkRat s (1 <<< (k + 1))

def exact : Binary64 → Exact
  | .nan => .nan
  | .infinite negative => .infinite negative
  | .finite negative s e => .finite negative (scale s e)

/-- The double `n` with the given sign; `n` below `2 ^ 53` is kept exactly. -/
def toFloat (negative : Bool) (n : Nat) : Float :=
  if negative then -(Float.ofNat n) else Float.ofNat n

/-- The integer part of a double; its sign stays, also on zero. -/
def trunc (x : Float) : Float :=
  match ofFloat x with
  | .finite negative s (.negSucc k) => toFloat negative (s >>> (k + 1))
  | _ => x

/-- The integer nearest to a double; a half goes away from zero. -/
def round (x : Float) : Float :=
  match ofFloat x with
  | .finite negative s (.negSucc k) => toFloat negative ((s + 1 <<< k) >>> (k + 1))
  | _ => x

/-- A positive number `digits · 10 ^ power` in decimal. -/
structure Shortest where
  digits : Nat
  power : Int

namespace Shortest

/-- Drops zeros at the end of the digits, at most `fuel` of them. -/
def strip : Nat → Shortest → Shortest
  | 0, x => x
  | fuel + 1, x =>
    if x.digits ≠ 0 ∧ x.digits % 10 = 0 then strip fuel ⟨x.digits / 10, x.power + 1⟩ else x

/-- `n · 10 ^ p` split into a numerator and a denominator. -/
def tenfold (n : Nat) : Int → Nat × Nat
  | .ofNat k => (n * placeValue k, 1)
  | .negSucc k => (n, placeValue (k + 1))

/-- The nearer of the points next to `value / den` on the grid `10 ^ power`
that lie between `low / den` and `high / den`; of two equally near ones the greater. -/
def onGrid (low value high den : Nat) (closed : Bool) (power : Int) : Option Shortest :=
  let (unit, per) := tenfold 1 power
  -- the point `k` of the grid is `k * unit / per`, the value is `value / den`
  let below := value * per / (den * unit)
  let inside (k : Nat) : Bool :=
    let point := k * unit * den
    if closed then low * per ≤ point ∧ point ≤ high * per
    else low * per < point ∧ point < high * per
  let gapBelow := value * per - below * unit * den
  let gapAbove := (below + 1) * unit * den - value * per
  if inside below && (!inside (below + 1) || gapBelow < gapAbove) then some ⟨below, power⟩
  else if inside (below + 1) then some ⟨below + 1, power⟩
  else none

/-- The least `t` with `value / den < 10 ^ t`, where `value / den` is not below
`2 ^ log` but below `2 ^ (log + 1)`.  A decimal logarithm is `0.30103` times a binary
one, which leaves four numbers to try. -/
def magnitude (value den : Nat) (log : Int) : Int :=
  let guess := log * 30103 / 100000
  let fits (t : Int) : Bool :=
    let (ten, per) := tenfold 1 t
    value * per < ten * den
  ([guess, guess + 1, guess + 2].find? fits).getD (guess + 3)

/-- The shortest decimal of `s · 2 ^ e` with `s` above zero. -/
def ofParts (s : Nat) (e : Int) : Shortest :=
  let (unit, den) : Nat × Nat := match e - 2 with
    | .ofNat k => (1 <<< k, 1)
    | .negSucc k => (1, 1 <<< (k + 1))
  let value := 4 * s * unit
  let low := (if s = leadingBit ∧ -1074 < e then 4 * s - 1 else 4 * s - 2) * unit
  let high := (4 * s + 2) * unit
  let t := magnitude value den (s.log2 + e)
  let found := (List.range 17).findSome? fun (n : Nat) =>
    onGrid low value high den (s % 2 == 0) (t - (n + 1 : Nat))
  strip 17 (found.getD ⟨0, 0⟩)

/-- The decimal exponent of the first digit. -/
def exponent (x : Shortest) : Int := (Digits.ofNat x.digits).length + x.power - 1

/-- Positional text, without a point if the number is whole. -/
def positional (x : Shortest) : List Char :=
  match x.power with
  | .ofNat k => Digits.ofNat x.digits ++ List.replicate k '0'
  | .negSucc k => Digits.pointed (k + 1) x.digits

/-- One digit, the others behind a point, and the exponent of the first digit. -/
def scientific (x : Shortest) : List Char :=
  let power := 'e' :: Digits.ofInt x.exponent
  match Digits.ofNat x.digits with
  | [] => power
  | [d] => d :: power
  | d :: ds => d :: '.' :: ds ++ power

end Shortest

/-- The text of a double with `finiteText` for the finite ones that are not zero
and `zeroText` for zero. -/
def textWith (zeroText : List Char) (finiteText : Shortest → List Char) : Binary64 → List Char
  | .nan => ['N', 'a', 'N']
  | .infinite negative => Exact.signed negative ['i', 'n', 'f']
  | .finite negative 0 _ => Exact.signed negative zeroText
  | .finite negative s e => Exact.signed negative (finiteText (.ofParts s e))

/-- The shortest text, always positional. -/
def text : Binary64 → List Char := textWith ['0'] Shortest.positional

/-- The shortest text as an entry of a list: a whole number ends in `.0`, and
numbers from `10 ^ 16` on or below `10 ^ -4` have an exponent. -/
def entryText : Binary64 → List Char :=
  textWith ['0', '.', '0'] fun x =>
    if 16 ≤ x.exponent ∨ x.exponent < -4 then x.scientific
    else if 0 ≤ x.power then x.positional ++ ['.', '0']
    else x.positional

end Binary64
end DiceFormula
