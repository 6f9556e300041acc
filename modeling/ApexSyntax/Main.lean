-- The program. Its arguments come from the command line, and the tree that it
-- checks is listed on standard input, one entry on each line. Results go to
-- standard output, and what is told on the way to standard error.
import ApexSyntax.CommandLine.Run
import ApexSyntax.FileSystem.Listing

namespace ApexSyntax.CommandLine

/-- The lines of an input without their line ends. Empty lines are left out. -/
partial def readLines (input : IO.FS.Stream) (lines : Array String) : IO (Array String) := do
  let line ← input.getLine
  if line.isEmpty then return lines
  let line := line.trimAscii.toString
  readLines input (if line.isEmpty then lines else lines.push line)

/-- The file system that standard input lists. -/
def listed : IO (Except String FileSystem) := do
  let lines ← readLines (← IO.getStdin) #[]
  return (FileSystem.empty "work").ofLines lines.toList

/-- Prints what a run gives. -/
def Outcome.show (o : Outcome) : IO UInt32 := do
  for line in o.told do IO.eprintln line
  IO.print o.stdout
  return o.exitCode.toUInt32

end ApexSyntax.CommandLine

open ApexSyntax.CommandLine in
def main (args : List String) : IO UInt32 := do
  let color := (← IO.getEnv "NO_COLOR").isNone
  match parse args with
  | .ok (.check _) =>
    match ← listed with
    | .ok fs => (run fs color args).show
    | .error line =>
      IO.eprintln ("not an entry: " ++ line)
      return 2
  | _ => (run (ApexSyntax.FileSystem.empty "work") color args).show
