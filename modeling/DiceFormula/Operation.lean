/-
# Operations

An operation joins a pool to the value of everything before it.  Four are those
of arithmetic; the two *each* operations apply their operand once for every roll
of the pool before.

| operation | sign | value |
| --- | :---: | --- |
| `plus` | `+` | `left + right` |
| `minus` | `-` | `left - right` |
| `multiply` | `*` | `left * right` |
| `divide` | `/` | `left / right`, and `0` if `right` is negligible |
| `eachPlus` | `+` | `left + count * right` |
| `eachMinus` | `-` | `left - count * right` |
-/

import DiceFormula.Number.Scalar

namespace DiceFormula

inductive Operation where
  | plus
  | minus
  | multiply
  | divide
  | eachPlus
  | eachMinus
deriving DecidableEq, Repr

namespace Operation

def all : List Operation := [plus, minus, multiply, divide, eachPlus, eachMinus]

def isEach : Operation → Bool
  | eachPlus | eachMinus => true
  | _ => false

/-- The operator character; an each operation shares that of its plain one. -/
def symbol : Operation → Char
  | plus | eachPlus => '+'
  | minus | eachMinus => '-'
  | multiply => '*'
  | divide => '/'

/-- The plain operation written with a character. -/
def ofSymbol? : Char → Option Operation
  | '+' => some plus
  | '-' => some minus
  | '*' => some multiply
  | '/' => some divide
  | _ => none

/-- The each operation with the same sign, if there is one. -/
def toEach? : Operation → Option Operation
  | plus | eachPlus => some eachPlus
  | minus | eachMinus => some eachMinus
  | multiply | divide => none

def name : Operation → String
  | plus => "Plus"
  | minus => "Minus"
  | multiply => "Multiply"
  | divide => "Divide"
  | eachPlus => "EachPlus"
  | eachMinus => "EachMinus"

def ofName? (text : String) : Option Operation := all.find? (·.name == text)

theorem ofName?_name (op : Operation) : ofName? op.name = some op := by
  cases op <;> rfl

theorem ofSymbol?_symbol (op : Operation) (h : op.isEach = false) :
    ofSymbol? op.symbol = some op := by
  cases op <;> simp_all [isEach, ofSymbol?, symbol]

variable {α : Type} [Scalar α]

/-- Joins `right` to the value `left`, which took `count` rolls. -/
def combine (op : Operation) (left right count : α) : α :=
  match op with
  | plus => left + right
  | minus => left - right
  | multiply => left * right
  | divide => if Scalar.isNegligible right then Scalar.ofInt 0 else left / right
  | eachPlus => left + count * right
  | eachMinus => left - count * right

end Operation
end DiceFormula
