/-
# What can go wrong

Three things are refused, each with its own kind of error: arguments that
describe no die, texts that are no expression, and rolls that a die cannot make.
Errors hold their cause; `message` puts it into words.
-/

import DiceFormula.Die.Formula
import DiceFormula.Text.Quoted

namespace DiceFormula

variable {α : Type}

/-- Why arguments describe no die. -/
inductive ArgumentError (α : Type) where
  | notFinite (value : α)
  | emptyInterval (min max : Int)
  | intervalTooLarge
  | noFaces (faces : Int)
  | countBelowOne (count : Die α)
  | customNotFinite (die : CustomDie)
  | customInverted (die : CustomDie)

/-- What is wrong with the text of an expression. -/
inductive ParseError.Kind where
  /-- There is nothing between two operators, or nothing at all. -/
  | emptyNode
  /-- No parser knows the text of a node. -/
  | unknownNode
  | unbalancedBracket
  | unbalancedParenthesis
deriving DecidableEq, Repr

/-- An error and its place: the bytes from `start` up to `stop` of the text, which
spell `slice`. -/
structure ParseError where
  kind : ParseError.Kind
  start : Nat
  stop : Nat
  slice : String
deriving DecidableEq, Repr

/-- Why a die could not be rolled. -/
inductive RollError (α : Type) where
  | countTooLarge (pool : Pool α) (count : α)
  | countBelowOne (pool : Pool α) (count : α)
  | noRolls (pool : Pool α)
  /-- The bounds of a custom die were out of order when it was about to roll. -/
  | customInverted (die : CustomDie)
  /-- A custom die, or whoever adds rolls, gave up. -/
  | refused (message : String)

inductive FormulaError (α : Type) where
  | argument (cause : ArgumentError α)
  | expression (cause : ParseError)
  | roll (cause : RollError α)

namespace ParseError.Kind

def message : ParseError.Kind → String
  | emptyNode => "expected a die, an interval or a number"
  | unknownNode => "unrecognized dice"
  | unbalancedBracket => "unbalanced bracket"
  | unbalancedParenthesis => "unbalanced parenthesis"

def name : ParseError.Kind → String
  | emptyNode => "EmptyNode"
  | unknownNode => "UnknownNode"
  | unbalancedBracket => "UnbalancedBracket"
  | unbalancedParenthesis => "UnbalancedParenthesis"

end ParseError.Kind

def ParseError.message (e : ParseError) : String :=
  s!"error at position {e.start} ({quote e.slice}): {e.kind.message}"

variable [Scalar α]

/-- The text of a number. -/
def Scalar.string (x : α) : String := String.ofList (Scalar.text x)

def ArgumentError.message : ArgumentError α → String
  | notFinite value => s!"fixed value must be finite, got {Scalar.string value}"
  | emptyInterval min max => s!"interval [{min}, {max}] is empty"
  | intervalTooLarge => "interval is too large"
  | noFaces faces => s!"a die needs at least one face, got {faces}"
  | countBelowOne count => s!"count {count.text} can roll fewer than one die"
  | customNotFinite die => s!"bounds of {die.name} must be finite"
  | customInverted die => s!"minimum of {die.name} exceeds its maximum"

def RollError.message : RollError α → String
  | countTooLarge pool count =>
    s!"{pool.text} rolled a count of {Scalar.string count}, more than {Pool.maxRolls} dice"
  | countBelowOne pool count => s!"{pool.text} rolled a count of {Scalar.string count}"
  | noRolls pool => s!"{pool.text} rolled no dice"
  | customInverted die => s!"minimum of {die.name} exceeds its maximum"
  | refused message => message

namespace FormulaError

def message : FormulaError α → String
  | argument cause => s!"invalid argument: {cause.message}"
  | expression cause => s!"invalid expression: {cause.message}"
  | roll cause => s!"invalid operation: {cause.message}"

end FormulaError
end DiceFormula
