/-
# Nodes

The text of a node denotes a pool.

| node | pool |
| --- | --- |
| a number | that value |
| a die or an interval | rolled once |
| a number, a die or an interval, and then a die or an interval | the second, as often as the first says |

A node whose parts are not valid dice, or whose count can be less than one, is
not known.
-/

import DiceFormula.Die.Build
import DiceFormula.Expression.Token

namespace DiceFormula

variable {α : Type} [Scalar α]

namespace Token

/-- The interval that a token denotes. -/
def toUniform? : Token → Option Uniform
  | number _ => none
  | die faces => (Uniform.ofFaces faces : Except (ArgumentError Unit) Uniform).toOption
  | interval min max => (Uniform.ofInterval min max : Except (ArgumentError Unit) Uniform).toOption

/-- The die that a token denotes. -/
def toDie? : Token → Option (Die α)
  | number literal => (Die.ofFixed (Scalar.ofDecimal literal)).toOption
  | t => t.toUniform?.map Die.uniform

namespace Shape

/-- The pool that one or two tokens denote. -/
def pool? : Shape → Option (Pool α)
  | one t => t.toDie?.map Pool.single
  | two count value => do
    let value ← value.toUniform?
    let count ← count.toDie?
    (Pool.ofCount noCustom count (.uniform value)).toOption

end Shape
end Token

/-- The pool that the text of a node denotes. -/
def Pool.ofNode? (text : String) : Option (Pool α) :=
  (Token.shape? text.toList).bind Token.Shape.pool?

/-- The interval that a text denotes: a single die or interval. -/
def Uniform.parse (text : String) : Except (FormulaError α) Uniform :=
  let unknown : FormulaError α :=
    .expression ⟨.unknownNode, 0, text.utf8ByteSize, text⟩
  match Token.shape? text.toList with
  | some (.one (.die faces)) => (ofFaces faces).mapError .argument
  | some (.one (.interval min max)) => (ofInterval min max).mapError .argument
  | _ => .error unknown

end DiceFormula
