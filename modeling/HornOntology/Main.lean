import HornOntology.CommandLine.Run

set_option autoImplicit false

/-! # The program

Reads the files that the command line names and runs it on their texts. -/

open HornOntology

/-- The text of a file, if it can be read. -/
def readText (path : String) : IO (Option String) := do
  try
    return some (← IO.FS.readFile path)
  catch _ =>
    return none

/-- Run the program. -/
def main (args : List String) : IO UInt32 := do
  let texts ← (CommandLine.paths args).mapM fun path => return (path, ← readText path)
  let outcome := CommandLine.run (fun path => (texts.lookup path).bind id) args
  (← IO.getStdout).putStr outcome.output
  (← IO.getStderr).putStr outcome.message
  return outcome.exit
