import ScriptTree.Arguments

/-!
# The program

Reads the arguments, finds the file, runs the command on it, and prints the answer.
-/

open ScriptTree.Command

/-- What the file system holds under a name. -/
def readDocument (file : String) : IO Document := do
  try
    return Document.ofBytes (← IO.FS.readBinFile file)
  catch _ =>
    return .missing

/-- Runs the command on the arguments of the process. -/
def main (arguments : List String) : IO UInt32 := do
  let some o := readArguments arguments
    | (← IO.getStderr).putStr "usage: scripttree [-t] [-v]... FILE\n"
      return 2
  let document ← readDocument o.file
  let report := run o fun _ => document
  (← IO.getStderr).putStr report.errors
  (← IO.getStdout).putStr report.output
  return UInt32.ofNat report.exitCode
