-- What keeps a path from being checked to its end. Syntax errors are no
-- failures: they are what a check finds.
import ApexSyntax.Diagnostic
import ApexSyntax.FileKind
import ApexSyntax.FileSystem.Basic

namespace ApexSyntax

inductive Failure where
  /-- An extension that belongs to no kind of file. -/
  | unknownExtension (extension : String)
  | unreadable (path : Path) (cause : ReadError)
  /-- The text of a file was given up at its first syntax error. -/
  | aborted (path : String) (e : SyntaxError)
  /-- The project descriptor is no JSON, or does not have the form of one. -/
  | badDescriptor (path : Path)
  deriving DecidableEq, Repr

namespace Failure

def message : Failure → String
  | unknownExtension extension =>
    "unknown extension '" ++ extension ++ "' (known: " ++
      String.intercalate ", " (FileKind.all.map FileKind.extension) ++ ")"
  | unreadable path cause => "cannot read " ++ path.text ++ ": " ++ cause.message
  | aborted path e => "parse aborted in " ++ path ++ ": " ++ e.display
  | badDescriptor path => "invalid project descriptor " ++ path.text

end Failure

end ApexSyntax
