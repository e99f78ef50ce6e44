import BisayaPlus.CommandLine

/-!
The program: reads the named file and, if the source asks for input, the standard input, and
writes the report.
-/

namespace BisayaPlus

/-- More turns than any run takes. -/
def loopBudget : Nat := Nat.pow 2 62

def readFile (name : String) : IO (Except Unreadable (List UInt8)) := do
  try
    return .ok (← IO.FS.readBinFile name).toList
  catch
    | .noFileOrDirectory .. => return .error .missing
    | .inappropriateType .. => return .error .directory
    | e => return .error (.other (toString e))

/-- The standard input as far as a run of the file may need it. -/
def readInput (options : Options) (contents : Except Unreadable (List UInt8)) :
    IO (List UInt8) := do
  let source? := contents.toOption.bind Text.decode?
  if !options.checkOnly && source?.any Report.asksForInput then
    return (← (← IO.getStdin).readBinToEnd).toList
  else
    return []

def showReport (report : Report) : IO UInt32 := do
  (← IO.getStdout).putStr report.output
  if !report.headline.isEmpty then
    (← IO.getStderr).putStrLn report.headline
  return report.exitCode.toUInt32

end BisayaPlus

open BisayaPlus in
def main (arguments : List String) : IO UInt32 := do
  match Options.ofArguments arguments with
  | .error cause => showReport (.ofNoOptions cause)
  | .ok options =>
    let contents ← readFile options.file
    let input ← readInput options contents
    showReport (.ofFile loopBudget options contents input)
