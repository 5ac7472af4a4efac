/-
# Quoted text

Messages show a piece of text between double quotes.  The quote, the backslash,
tab, line feed, carriage return and null are written with a backslash; characters
without a shape of their own are written by their code point in hexadecimal, as
in `\u{301}`; all others stand for themselves.
-/

import DiceFormula.Text.Unprintable

namespace DiceFormula
namespace Quoted

/-- One character between the quotes. -/
def escape : Char → List Char
  | '"' => ['\\', '"']
  | '\\' => ['\\', '\\']
  | '\t' => ['\\', 't']
  | '\n' => ['\\', 'n']
  | '\r' => ['\\', 'r']
  | '\x00' => ['\\', '0']
  | c =>
    if isUnprintable c then ['\\', 'u', '\x7b'] ++ Nat.toDigits 16 c.toNat ++ ['\x7d'] else [c]

/-- A text between quotes. -/
def write (cs : List Char) : List Char := '"' :: cs.flatMap escape ++ ['"']

end Quoted

/-- A text between quotes. -/
def quote (s : String) : String := String.ofList (Quoted.write s.toList)

end DiceFormula
