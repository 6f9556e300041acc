-- Syntax errors as they are raised, and as they are kept: with the path of the
-- file they were found in. A kept error has a written form of one line.
import ApexSyntax.Json.Basic

namespace ApexSyntax

/-- A syntax error at a line and a column, both counted from one. -/
structure SyntaxError where
  line : Nat
  column : Nat
  message : String
  deriving DecidableEq, Repr

namespace SyntaxError

/-- The place and the message. -/
def display (e : SyntaxError) : String :=
  "line " ++ toString e.line ++ ":" ++ toString e.column ++ " " ++ e.message

end SyntaxError

/-- A syntax error in a file. -/
structure Diagnostic where
  column : Nat
  line : Nat
  message : String
  path : String
  deriving DecidableEq, Repr

namespace Diagnostic

def ofError (path : String) (e : SyntaxError) : Diagnostic :=
  { column := e.column, line := e.line, message := e.message, path }

/-- The error without its path. -/
def error (d : Diagnostic) : SyntaxError :=
  { line := d.line, column := d.column, message := d.message }

@[simp] theorem error_ofError (path : String) (e : SyntaxError) : (ofError path e).error = e := rfl

def toJson (d : Diagnostic) : Json :=
  .object [("column", .ofNat d.column), ("line", .ofNat d.line), ("message", .string d.message),
    ("path", .string d.path)]

/-- One line of JSON, with its line break. -/
def jsonLine (d : Diagnostic) : String := d.toJson.compact ++ "\n"

end Diagnostic

end ApexSyntax
