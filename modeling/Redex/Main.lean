import Redex.CommandLine.Run

/-!
# The executable

Runs the command on the terminal. A program may step for ever, so the budget is beyond what any
machine can use up.
-/

namespace Redex.CommandLine

def terminal : Console IO where
  out text := do
    let stdout ← IO.getStdout
    stdout.putStr text
    stdout.flush
  err text := do (← IO.getStderr).putStr text
  input := do (← IO.getStdin).readToEnd
  file? path := do
    try
      return some (← IO.FS.readFile path)
    catch
      | .noFileOrDirectory .. => return none
      | e => throw e
  readVariable name := IO.getEnv name

end Redex.CommandLine

open Redex.CommandLine in
def main (args : List String) : IO UInt32 := do
  match ← run terminal (Nat.pow 2 62) args with
  | .exit code => return code.toUInt32
  | .uncaught e =>
    IO.eprintln e.message
    return 1
  | .unusable s =>
    IO.eprintln s.blankMessage
    return 1
  | .exhausted =>
    IO.eprintln "The program did not come to an end."
    return 1
