/-
# Cutting an expression into segments

An expression such as `2d6+3(-1)` is a row of segments with operators between
them.  An operator character cuts unless

* it stands inside brackets, or
* it is a sign: a `+` or `-` in front of which, blanks aside, there is nothing,
  another operator character, or a comma.

The segment behind an operator takes its operation, in the each variant if the
operator stands, blanks aside, right behind an opening parenthesis.  Parentheses
do nothing else.

Before it is cut an expression has to be balanced: brackets open and close in
turn, and the parentheses outside of them are properly nested.  Positions are
counted in bytes of UTF-8.
-/

import DiceFormula.Error
import DiceFormula.Text.Blank

namespace DiceFormula

/-- A piece of an expression and the operation in front of it. -/
structure Segment where
  operation : Operation
  /-- Where the text begins. -/
  start : Nat
  text : List Char
deriving DecidableEq, Repr

namespace Segment

/-- Where the text ends. -/
def stop (s : Segment) : Nat := s.start + byteLength s.text

/-- The text without its parentheses. -/
def node (s : Segment) : List Char := s.text.filter fun c => c != '(' && c != ')'

/-- An error about the whole segment. -/
def error (s : Segment) (kind : ParseError.Kind) : ParseError :=
  ⟨kind, s.start, s.stop, String.ofList s.text⟩

end Segment

namespace Expression

/-- An error about the character `c` at `position`. -/
def errorAt (kind : ParseError.Kind) (position : Nat) (c : Char) : ParseError :=
  ⟨kind, position, position + c.utf8Size, String.singleton c⟩

/-- Walks through a text that starts at `position`, with the place of the open
bracket and the places of the open parentheses, innermost first.  The first
character that nothing can mend is the error; a bracket or parenthesis that stays
open is one at the end. -/
def checkBalance (bracket : Option Nat) (parens : List Nat) (position : Nat) :
    List Char → Except ParseError Unit
  | [] =>
    match bracket, parens with
    | some i, _ => .error (errorAt .unbalancedBracket i '[')
    | none, i :: _ => .error (errorAt .unbalancedParenthesis i '(')
    | none, [] => .ok ()
  | c :: cs =>
    let next := position + c.utf8Size
    match bracket with
    | some i =>
      if c = '[' then .error (errorAt .unbalancedBracket position c)
      else checkBalance (if c = ']' then none else some i) parens next cs
    | none =>
      if c = '[' then checkBalance (some position) parens next cs
      else if c = ']' then .error (errorAt .unbalancedBracket position c)
      else if c = '(' then checkBalance none (position :: parens) next cs
      else if c = ')' then
        match parens with
        | [] => .error (errorAt .unbalancedParenthesis position c)
        | _ :: parens => checkBalance none parens next cs
      else checkBalance none parens next cs

/-- Whether `c` behind `previous`, the last character that is not blank, is a sign. -/
def isSign (previous : Option Char) (c : Char) : Bool :=
  (c == '+' || c == '-') &&
    match previous with
    | none => true
    | some p => p == '+' || p == '-' || p == '*' || p == '/' || p == '[' || p == ','

/-- The operation that cuts at `c`, behind `previous`. -/
def cutAt? (previous : Option Char) (c : Char) : Option Operation :=
  if isSign previous c then none
  else (Operation.ofSymbol? c).map fun op =>
    if previous = some '(' then op.toEach?.getD op else op

/-- Where the cutting of an expression is. -/
structure Cursor where
  /-- Whether a bracket is open. -/
  inside : Bool
  /-- The last character that is not blank. -/
  previous : Option Char
  /-- The operation, the start and, last character first, the text of the segment. -/
  operation : Operation
  start : Nat
  node : List Char

namespace Cursor

/-- Nothing has been read, and the text starts at `start`. -/
def begin (start : Nat) : Cursor := ⟨false, none, .plus, start, []⟩

/-- The segment that ends here. -/
def segment (k : Cursor) : Segment := ⟨k.operation, k.start, k.node.reverse⟩

/-- The operation that `c` cuts for. -/
def cut? (k : Cursor) (c : Char) : Option Operation :=
  if k.inside then none else cutAt? k.previous c

/-- The last character that is not blank, once `c` is read. -/
def previousAfter (k : Cursor) (c : Char) : Option Char := if isBlank c then k.previous else some c

/-- Whether a bracket is open, once `c` is read. -/
def insideAfter (k : Cursor) (c : Char) : Bool := if k.inside then c != ']' else c == '['

/-- Adds a character to the segment. -/
def keep (k : Cursor) (c : Char) : Cursor :=
  { k with inside := k.insideAfter c, previous := k.previousAfter c, node := c :: k.node }

/-- Starts a segment behind the operator `c`. -/
def next (k : Cursor) (op : Operation) (c : Char) : Cursor where
  inside := false
  previous := some c
  operation := op
  start := k.segment.stop + c.utf8Size
  node := []

/-- The segments of the rest of the text. -/
def cut (k : Cursor) : List Char → List Segment
  | [] => [k.segment]
  | c :: cs =>
    match k.cut? c with
    | some op => k.segment :: (k.next op c).cut cs
    | none => (k.keep c).cut cs

theorem cut_ne_nil (k : Cursor) (cs : List Char) : k.cut cs ≠ [] := by
  induction cs generalizing k with
  | nil => simp [cut]
  | cons c cs ih => rw [cut]; split <;> simp [ih]

end Cursor

/-- Where the text begins when the blanks at its ends are dropped; a text of blanks
alone begins at zero. -/
def startOf (cs : List Char) : Nat := byteLength ((trimEnd cs).takeWhile isBlank)

/-- The segments of an expression. -/
def split (cs : List Char) : Except ParseError (List Segment) := do
  checkBalance none [] (startOf cs) (trim cs)
  return (Cursor.begin (startOf cs)).cut (trim cs)

end Expression
end DiceFormula
