import DiceFormula.Log
import DiceFormula.Main
import DiceFormula.Proofs.Die.Attainment
import DiceFormula.Proofs.Die.Ordered
import DiceFormula.Proofs.Die.WholeBounds
import DiceFormula.Proofs.Expression.Balance
import DiceFormula.Proofs.Expression.BracketParens
import DiceFormula.Proofs.Expression.Built
import DiceFormula.Proofs.Expression.Division
import DiceFormula.Proofs.Expression.DoubleNormalisation
import DiceFormula.Proofs.Expression.Gluing
import DiceFormula.Proofs.Expression.Grammar
import DiceFormula.Proofs.Expression.Handles
import DiceFormula.Proofs.Expression.Interference
import DiceFormula.Proofs.Expression.Interval
import DiceFormula.Proofs.Expression.LongestMatch
import DiceFormula.Proofs.Expression.Refusal
import DiceFormula.Proofs.Expression.Signs
import DiceFormula.Proofs.Expression.Spacing
import DiceFormula.Proofs.Random.Schedule
import DiceFormula.Proofs.Record.Head
import DiceFormula.Proofs.Record.RoundTrip
import DiceFormula.Proofs.Roll.Dice
import DiceFormula.Proofs.Roll.Draws
import DiceFormula.Proofs.Roll.Failure
import DiceFormula.Proofs.Roll.Modified
import DiceFormula.Proofs.Roll.Nesting
import DiceFormula.Proofs.Roll.TameCount
import DiceFormula.Proofs.Roll.Unfolding
import DiceFormula.Random.Shared
import DiceFormula.Record.Read
import DiceFormula.Roll.HouseRule
import DiceFormula.Roll.Scripted
import DiceFormula.Proofs.Expression.CanonicalNumber
