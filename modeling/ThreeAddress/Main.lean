import ThreeAddress.CommandLine

/-!
The program: reads the arguments and the file, prints, and writes.
-/

namespace ThreeAddress

def readFile (path : String) : IO (Option String) := do
  try
    return some (← IO.FS.readFile path)
  catch _ => return none

/-- Writes a file; says whether this succeeded. -/
def writeFile (path text : String) : IO Bool := do
  try
    IO.FS.writeFile path text
    return true
  catch _ => return false

def Command.execute (c : Command) : IO UInt32 := do
  let r := c.run (← readFile c.input)
  let written ← match r.result with
    | .file path text => writeFile path text
    | _ => pure false
  let exit := r.exit written
  (← IO.getStdout).putStr exit.stdout
  (← IO.getStderr).putStr exit.stderr
  return exit.code.toUInt32

end ThreeAddress

def main (args : List String) : IO UInt32 := do
  match ThreeAddress.CommandLine.request? args with
  | some (.compile c) => c.execute
  | some .version =>
    (← IO.getStdout).putStr ThreeAddress.CommandLine.versionText
    return 0
  | none =>
    (← IO.getStderr).putStr "usage: tacc [-v] compile <input> [-o FILE] [--comments] [--registers N] [--print-tac] [--print-cfg]\n"
    return 2
