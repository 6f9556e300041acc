-- A check of a text as one call of the parser on its tokens, and what is said of
-- that call.
import ApexSyntax.Check.Source

namespace ApexSyntax

/-- The parser of a check at the start of its tokens. -/
def Parser.ofCheck (s : TokenStream) (path : String) (failFast : Bool) : Parser :=
  { ofStream s with
    listeners := if failFast then [.throwing, .echoer path] else [.echoer path] }

/-- What a check says of its call. -/
def verdictOf (path : String) : Parser × Except SyntaxError Tree → Except Failure (List Diagnostic)
  | (_, .error e) => .error (.aborted path e)
  | (p, .ok _) => .ok (Listener.allDiagnostics p.listeners)

theorem verdictOf_of_error {path : String} {r : Parser × Except SyntaxError Tree} {e : SyntaxError}
    (h : r.2 = .error e) : verdictOf path r = .error (.aborted path e) := by
  obtain ⟨p, out⟩ := r
  cases h
  rfl

/-- A check makes one call. -/
theorem checkSource_eq {path text : String} {s : TokenStream} (kind : FileKind) (failFast : Bool)
    (hs : TokenStream.ofString .folded text = .ok s) :
    checkSource path text kind failFast =
      verdictOf path ((Parser.ofCheck s path failFast).parse kind.entry) := by
  unfold checkSource Parser.ofText
  rw [hs]
  cases failFast with
  | false => rfl
  | true => rfl

end ApexSyntax
