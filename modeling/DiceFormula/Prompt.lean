/-
# A session at the prompt

`repl [seed] [rolls]` reads one expression per line.  It answers with the formula of
the chain and its bounds, and with the values of so many rolls on the next line; a
line that starts with `?` asks for the steps of a single roll instead.  Blank lines
are passed over.  Errors are told apart from answers.

The two arguments are unsigned integers of 64 bits, in digits behind at most one
plus sign.
-/

import DiceFormula.Random.Source
import DiceFormula.Roll.Step
import DiceFormula.Expression.Registry

namespace DiceFormula
namespace Prompt

/-- Why an argument is no unsigned integer. -/
inductive ArgumentFault where
  | empty
  | invalidDigit
  | overflow
deriving DecidableEq, Repr

def ArgumentFault.message (fault : ArgumentFault) : String :=
  let kind := match fault with
    | empty => "Empty"
    | invalidDigit => "InvalidDigit"
    | overflow => "PosOverflow"
  "ParseIntError \x7b kind: " ++ kind ++ " \x7d"

/-- The greatest unsigned integer of 64 bits. -/
def largestUnsigned : Nat := 0xffffffffffffffff

/-- Reads digits behind those of `n`. -/
def readDigits (n : Nat) : List Char → Except ArgumentFault Nat
  | [] => .ok n
  | c :: cs =>
    if !c.isDigit then .error .invalidDigit
    else
      let n := 10 * n + (c.toNat - '0'.toNat)
      if largestUnsigned < n then .error .overflow else readDigits n cs

/-- Reads an unsigned integer of 64 bits. -/
def readUnsigned (text : String) : Except ArgumentFault Nat :=
  match text.toList with
  | [] => .error .empty
  | ['+'] => .error .invalidDigit
  | '+' :: cs => readDigits 0 cs
  | cs => readDigits 0 cs

/-- What the arguments ask for. -/
structure Options where
  seed : Option Nat
  rolls : Nat

/-- Reads the arguments, of which those behind the second do not matter. -/
def Options.ofArgs : List String → Except ArgumentFault Options
  | [] => .ok ⟨none, 1⟩
  | [seed] => do return ⟨some (← readUnsigned seed), 1⟩
  | seed :: rolls :: _ => do
    let seed ← readUnsigned seed
    return ⟨some seed, ← readUnsigned rolls⟩

/-- The generator for a session: the first one of the seed, or else of `other`. -/
def Options.generator (o : Options) (other : Seeder) : Generator :=
  match o.seed with
  | some seed => (Seeder.ofSeed (UInt64.ofNat seed)).spawn.1
  | none => other.spawn.1

/-- The table of a session. -/
def table : Table Source Float := .ofSource fun low high r => r.nextInt low high

/-- Numbers behind commas. -/
def commaList (xs : List Float) : String :=
  String.intercalate ", " (xs.map fun x => String.ofList (Scalar.shortText x))

/-- The formula of a chain and its bounds. -/
def headline (c : Chain Float) : String :=
  let bounds := c.bounds noCustom
  s!"{c.text} [{commaList [bounds.low, bounds.high]}]"

/-- How a step is joined to those before it. -/
def joinText (op : Operation) : String :=
  if op.isEach then s!"({op.symbol} each) " else s!"{op.symbol} "

/-- The line of a step. -/
def stepLine (joint : String) (s : Step Float) : String :=
  s!"  {joint}{s.text} [{commaList s.rolls.list}]"

/-- The lines of a stepped roll. -/
def steppedLines (r : Transcript Float) : List String :=
  let steps := match r.steps with
    | [] => []
    | s :: ss => stepLine "" s :: ss.map fun s => stepLine (joinText s.operation) s
  steps ++ [s!"= {commaList [r.total]}"]

/-- Rolls a chain and shows what it rolled. -/
def rollText (rolls : Nat) (steps : Bool) (c : Chain Float) : RollM Source Float String := do
  if steps then return String.intercalate "\n" (steppedLines (← c.rollSteps table))
  else return commaList (← RollM.collect rolls (c.roll table))

/-- The answer to an expression. -/
def evaluate (rolls : Nat) (steps : Bool) (text : String) (r : Source) :
    Except (FormulaError Float) String × Source :=
  match Chain.parse text with
  | .error e => (.error (.expression e), r)
  | .ok chain =>
    let run := rollText rolls steps chain r
    match run.outcome with
    | .ok rolled => (.ok (headline chain ++ "\n" ++ rolled), run.state)
    | .error e => (.error (.roll e), run.state)

/-- The answer to a line; there is none to a blank one. -/
def answer (rolls : Nat) (line : String) (r : Source) :
    Option (Except (FormulaError Float) String) × Source :=
  match trim line.toList with
  | [] => (none, r)
  | '?' :: cs => let (a, r) := evaluate rolls true (String.ofList cs) r; (some a, r)
  | cs => let (a, r) := evaluate rolls false (String.ofList cs) r; (some a, r)

/-- What a session leaves behind. -/
structure Output where
  stdout : String
  stderr : String
  status : Nat
deriving DecidableEq, Repr

def promptText : String := "> "

def errorText (message : String) : String := s!"Error: {message}\n"

namespace Output

/-- Adds the answer to a line, and the next prompt. -/
def add (o : Output) : Option (Except (FormulaError Float) String) → Output
  | none => { o with stdout := o.stdout ++ promptText }
  | some (.ok text) => { o with stdout := o.stdout ++ text ++ "\n" ++ promptText }
  | some (.error e) =>
    { o with stdout := o.stdout ++ promptText, stderr := o.stderr ++ errorText e.message }

end Output

/-- The lines of a text; what follows the last line feed is a line unless it is
empty. -/
def lines (text : String) : List String :=
  match (text.splitOn "\n").reverse with
  | "" :: ls => ls.reverse
  | ls => ls.reverse

/-- A whole session.  Without a seed its generator comes from `other`. -/
def session (args : List String) (input : String) (other : Seeder) : Output :=
  match Options.ofArgs args with
  | .error fault => ⟨"", errorText fault.message, 1⟩
  | .ok options =>
    let start := (⟨promptText, "", 0⟩, Source.seeded (options.generator other))
    ((lines input).foldl
      (fun (o, r) line =>
        let (a, r) := answer options.rolls line r
        (Output.add o a, r))
      start).1

end Prompt
end DiceFormula
