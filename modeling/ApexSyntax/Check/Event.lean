-- What a check tells while it runs: progress, and what kept it from going on.
import ApexSyntax.Check.Failure

namespace ApexSyntax

inductive Event where
  /-- A syntax error was found. -/
  | echoed (d : Diagnostic)
  | foundErrors (count : Nat) (path : String)
  | parsedFiles (count : Nat) (kind : FileKind) (root : Path)
  | missingRoot (root : Path)
  | stopped (root : Path) (cause : Failure)
  | refused (cause : Failure)
  | checkingAll (project : String)
  | checkingPackage (project declared : String)
  | projectStopped (project : String) (cause : Failure)
  deriving DecidableEq, Repr

inductive Level where
  | info
  | warning
  | error
  deriving DecidableEq, Repr

def Level.label : Level → String
  | info => "INFO"
  | warning => "WARN"
  | error => "ERROR"

namespace Event

/-- How much an event matters. Syntax errors have no level: they are always told. -/
def level? : Event → Option Level
  | echoed _ => none
  | foundErrors .. | parsedFiles .. | checkingAll _ | checkingPackage .. => some .info
  | missingRoot _ => some .warning
  | stopped .. | refused _ | projectStopped .. => some .error

def message : Event → String
  | echoed d => d.toJson.compact
  | foundErrors count path => "Found " ++ toString count ++ " syntax errors in: " ++ path
  | parsedFiles count kind root =>
    "Parsed " ++ toString count ++ " '" ++ kind.extension ++ "' files in: " ++ root.text
  | missingRoot root => "Path does not exist, aborting: " ++ root.text
  | stopped root cause => "Error processing: " ++ root.text ++ ": " ++ cause.message
  | refused cause => cause.message
  | checkingAll project => "[" ++ project ++ "]: No valid SFDX project, checking all files"
  | checkingPackage project declared =>
    "[" ++ project ++ "]: Checking package \"" ++ declared ++ "\""
  | projectStopped project cause => "[" ++ project ++ "]: Error processing: " ++ cause.message

/-- The line that tells of an event. A quiet run leaves out mere progress. -/
def line? (quiet : Bool) (e : Event) : Option String :=
  match e.level? with
  | none => some e.message
  | some l => if quiet ∧ l = .info then none else some (l.label ++ " " ++ e.message)

end Event

end ApexSyntax
