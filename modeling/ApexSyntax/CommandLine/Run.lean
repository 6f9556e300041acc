-- Running the program on a file system: what it prints, what it tells while it
-- runs, and the code it ends with.
import ApexSyntax.Check.Project
import ApexSyntax.CommandLine.Arguments
import ApexSyntax.Config.Settings
import ApexSyntax.Report

namespace ApexSyntax.CommandLine

def programName : String := "apexcheck"

def programVersion : String := "0.1.0"

structure Outcome where
  exitCode : Nat
  stdout : String
  /-- The lines that are told while the program runs. -/
  told : List String
  deriving DecidableEq, Repr

/-- What the options of a check ask for. -/
def CheckOptions.request (o : CheckOptions) : Request :=
  { path := o.path
    extensions := some o.extensions
    output := o.output
    project := if o.noProject then some false else none
    quiet := if o.quiet then some true else none }

/-- Checks what the settings say. -/
def checkBy (fs : FileSystem) (s : Settings) : List PackageResult × List Event :=
  if s.project then fs.checkProject s.path s.extensions s.maxDepth
  else
    let (result, events) := fs.checkPath s.path s.extensions
    ([⟨s.path.fileName?.getD ".", ".", none, result⟩], events)

/-- Runs a command. JSON is never coloured. -/
def Command.run (fs : FileSystem) (color : Bool) : Command → Outcome
  | .version => ⟨0, programVersion ++ "\n", []⟩
  | .check o =>
    let s := fs.settings o.request
    let (results, events) := checkBy fs s
    ⟨PackageResult.exitCode results, Report.print s.output color results,
      events.filterMap (Event.line? s.quiet)⟩

/-- Runs the program with some arguments. -/
def run (fs : FileSystem) (color : Bool) (args : List String) : Outcome :=
  match parse args with
  | .ok command => command.run fs color
  | .error .version => ⟨0, programName ++ " " ++ programVersion ++ "\n", []⟩
  | .error e => ⟨e.exitCode, "", []⟩

end ApexSyntax.CommandLine
