/-
# The prompt

Runs a session at the prompt, line by line.
-/

import DiceFormula.Prompt

namespace DiceFormula
namespace Prompt

/-- A seed source that nobody can foresee. -/
def freshSource : IO Seeder := do
  let bytes ← IO.getRandomBytes 8
  return .ofSeed (bytes.foldl (fun n b => n * 256 + b.toUInt64) 0)

/-- Answers lines until the input ends. -/
partial def serve (rolls : Nat) (input : IO.FS.Stream) (r : Source) : IO Unit := do
  IO.print promptText
  (← IO.getStdout).flush
  let line ← input.getLine
  if line.isEmpty then return
  let (a, r) := answer rolls line r
  match a with
  | none => pure ()
  | some (.ok text) => IO.println text
  | some (.error e) => IO.eprint (errorText e.message)
  serve rolls input r

end Prompt
end DiceFormula

def main (args : List String) : IO UInt32 := do
  match DiceFormula.Prompt.Options.ofArgs args with
  | .error fault =>
    IO.eprint (DiceFormula.Prompt.errorText fault.message)
    return 1
  | .ok options =>
    let r := DiceFormula.Source.seeded (options.generator (← DiceFormula.Prompt.freshSource))
    DiceFormula.Prompt.serve options.rolls (← IO.getStdin) r
    return 0
