/-
# Tokens of a node

A node is made of numbers, dice and intervals, with blanks between them.

| token | form |
| --- | --- |
| number | `-?(digits(.digits*)?\|.digits)` |
| die | `d` and digits |
| interval | `[` signed digits `,` signed digits `]`, with spaces and tabs inside |

Each token takes as many characters as its form allows.  Every part of a number
that is longer than its first digit is again a number, and dice and intervals
leave no choice, so no token ever has to be given back.  Here a blank is a space,
a tab, a carriage return or a line feed.

The numbers of dice and intervals fit into 64 bits, or there is no token.
-/

import DiceFormula.Number.Decimal

namespace DiceFormula

inductive Token where
  | number (literal : Decimal)
  | die (faces : Int)
  | interval (min max : Int)
deriving DecidableEq, Repr

namespace Token

/-- A blank between tokens. -/
def isSpace (c : Char) : Bool := c == ' ' || c == '\t' || c == '\r' || c == '\n'

/-- A blank inside an interval. -/
def isInnerSpace (c : Char) : Bool := c == ' ' || c == '\t'

/-- Splits the digits off the front. -/
def digits (cs : List Char) : List Char × List Char := cs.span Char.isDigit

/-- Splits a minus sign off the front. -/
def sign : List Char → Bool × List Char
  | '-' :: cs => (true, cs)
  | cs => (false, cs)

/-- Reads the digits of a number whose sign is known. -/
def unsignedNumber? (negative : Bool) (cs : List Char) : Option (Decimal × List Char) :=
  match digits cs with
  | ([], '.' :: rest) =>
    match digits rest with
    | ([], _) => none
    | (fraction, rest) => some (.ofParts negative [] fraction, rest)
  | ([], _) => none
  | (whole, '.' :: rest) =>
    let (fraction, rest) := digits rest
    some (.ofParts negative whole fraction, rest)
  | (whole, rest) => some (.ofParts negative whole [], rest)

/-- Reads a number. -/
def number? (cs : List Char) : Option (Decimal × List Char) :=
  let (negative, rest) := sign cs
  unsignedNumber? negative rest

/-- An integer, if it fits into 64 bits. -/
def fit? (n : Int) : Option Int := if smallestInt ≤ n ∧ n ≤ largestInt then some n else none

/-- Reads an integer. -/
def integer? (cs : List Char) : Option (Int × List Char) := do
  let (negative, rest) := sign cs
  match digits rest with
  | ([], _) => none
  | (ds, rest) =>
    let n : Int := Digits.toNat ds
    return (← fit? (if negative then -n else n), rest)

/-- Drops the blanks in front of a part of an interval. -/
def skipInner (cs : List Char) : List Char := cs.dropWhile isInnerSpace

/-- Reads an interval behind its opening bracket. -/
def interval? (cs : List Char) : Option (Token × List Char) := do
  let (min, rest) ← integer? (skipInner cs)
  let ',' :: rest := skipInner rest | none
  let (max, rest) ← integer? (skipInner rest)
  let ']' :: rest := skipInner rest | none
  return (.interval min max, rest)

/-- Reads a die behind its letter. -/
def die? (cs : List Char) : Option (Token × List Char) := do
  match digits cs with
  | ([], _) => none
  | (ds, rest) => return (.die (← fit? (Digits.toNat ds)), rest)

/-- Reads the token at the front. -/
def next? : List Char → Option (Token × List Char)
  | 'd' :: cs => die? cs
  | '[' :: cs => interval? cs
  | cs => (number? cs).map fun (literal, rest) => (.number literal, rest)

/-- Drops the blanks in front of a token. -/
def skip (cs : List Char) : List Char := cs.dropWhile isSpace

/-- The tokens of a text that consists of one or two of them. -/
inductive Shape where
  | one (token : Token)
  | two (first second : Token)
deriving DecidableEq, Repr

/-- Reads a text of one or two tokens. -/
def shape? (cs : List Char) : Option Shape := do
  let (first, rest) ← next? (skip cs)
  match skip rest with
  | [] => return .one first
  | rest =>
    let (second, rest) ← next? rest
    match skip rest with
    | [] => return .two first second
    | _ => none

end Token
end DiceFormula
