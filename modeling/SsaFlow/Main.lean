import SsaFlow.Command

/-!
# The program

Reads the arguments and the one file they name, and prints what the command
leaves behind.
-/

namespace SsaFlow

/-- The text of a file, if it can be read. -/
def readText (file : String) : IO (Option String) := do
  try
    return some (← IO.FS.readFile file)
  catch _ =>
    return none

/-- The file that a command reads. -/
def Command.file? : Command → Option String
  | .help => none
  | .printIr file => some file
  | .liveness file _ _ => some file

end SsaFlow

open SsaFlow in
/-- Runs the command line and gives the exit code. -/
def main (args : List String) : IO UInt32 := do
  match Command.parse args with
  | .error e =>
    (← IO.getStderr).putStr ("error: " ++ e.message ++ "\n\n" ++ Command.usage)
    return 1
  | .ok command =>
    let text ← match command.file? with
      | some file => readText file
      | none => pure none
    let outcome := command.run fun _ => text
    (← IO.getStdout).putStr outcome.stdout
    (← IO.getStderr).putStr outcome.stderr
    return outcome.code
