-- Checking one text: parse it as its kind of file says, and list the syntax
-- errors under the path of the file.
import ApexSyntax.Check.Failure

namespace ApexSyntax

/-- A parser at the start of a text. With `failFast` it throws the first error. -/
def Parser.ofText (text : String) (failFast : Bool) : Except SyntaxError Parser := do
  let p := ofStream (← TokenStream.ofString .folded text)
  return if failFast then p.addListener .throwing else p

/-- The syntax errors of a text. With `failFast` the first one is a failure. -/
def checkSource (path text : String) (kind : FileKind) (failFast : Bool) :
    Except Failure (List Diagnostic) :=
  match Parser.ofText text failFast with
  | .error e => .error (.aborted path e)
  | .ok p =>
    match (p.addListener (.echoer path)).parse kind.entry with
    | (_, .error e) => .error (.aborted path e)
    | (p, .ok _) => .ok (Listener.allDiagnostics p.listeners)

end ApexSyntax
