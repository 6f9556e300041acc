-- Layout decides nothing. Blanks and comments between tokens may be added, removed and
-- changed, except between two angles of one kind: every call returns the same tree and
-- reports the same messages at the same tokens, so a text gets the same verdict.
import ApexSyntax.Proofs.Check.Calls
import ApexSyntax.Proofs.Layout.Parsers

namespace ApexSyntax

/-! ## Errors without their places -/

def SyntaxError.placeless (e : SyntaxError) : SyntaxError := { e with line := 0, column := 0 }

def Diagnostic.placeless (d : Diagnostic) : Diagnostic := { d with line := 0, column := 0 }

theorem Diagnostic.placeless_ofError (path : String) (e : SyntaxError) :
    (ofError path e).placeless = ofError path e.placeless := rfl

def Failure.placeless : Failure → Failure
  | .aborted path e => .aborted path e.placeless
  | f => f

/-- What a check says, without places. -/
def placelessVerdict : Except Failure (List Diagnostic) → Except Failure (List Diagnostic)
  | .ok ds => .ok (ds.map Diagnostic.placeless)
  | .error f => .error f.placeless

namespace Listener

/-- The listener with the places of all that it has kept left out. -/
def placeless : Listener → Listener
  | collecting path echo kept => collecting path echo (kept.map Diagnostic.placeless)
  | l => l

theorem isThrowing_placeless (l : Listener) : l.placeless.isThrowing = l.isThrowing := by
  cases l <;> rfl

theorem placeless_hear (e : SyntaxError) (l : Listener) :
    (l.hear e).placeless = l.placeless.hear e.placeless := by
  cases l with
  | throwing => rfl
  | collecting path echo kept => simp [hear, placeless, Diagnostic.placeless_ofError]
  | counting heard => rfl

theorem placeless_hearAll (e : SyntaxError) (ls : List Listener) :
    (hearAll e ls).map placeless = hearAll e.placeless (ls.map placeless) := by
  induction ls with
  | nil => rfl
  | cons l ls ih =>
    rw [hearAll, List.map_cons, hearAll, isThrowing_placeless]
    split
    · rw [List.map_cons]
    · rw [List.map_cons, placeless_hear, ih]

/-- What is heard of some errors, places apart, depends on their messages only. -/
theorem placeless_hearEach (es : List SyntaxError) (ls : List Listener) :
    (hearEach es ls).map placeless =
      hearEach (es.map SyntaxError.placeless) (ls.map placeless) := by
  induction es generalizing ls with
  | nil => rfl
  | cons e es ih => rw [hearEach_cons, ih, placeless_hearAll, List.map_cons, hearEach_cons]

theorem allDiagnostics_placeless (ls : List Listener) :
    (allDiagnostics ls).map Diagnostic.placeless = allDiagnostics (ls.map placeless) := by
  induction ls with
  | nil => rfl
  | cons l ls ih =>
    have hl : l.placeless.diagnostics.toList = l.diagnostics.toList.map Diagnostic.placeless := by
      cases l <;> simp [placeless, diagnostics]
    simp only [allDiagnostics] at ih
    simp [allDiagnostics, hl, ih]

end Listener

/-- Places apart, a report is the same error in every stream. -/
theorem Report.placeless_error (s t : TokenStream) (r : Report) :
    (r.error t).placeless = (r.error s).placeless := rfl

theorem Report.map_placeless_error (s t : TokenStream) (rs : List Report) :
    (rs.map (error t)).map SyntaxError.placeless =
      (rs.map (error s)).map SyntaxError.placeless := by
  rw [List.map_map, List.map_map]
  rfl

/-! ## Checks -/

section Checks

variable {s t : TokenStream}

/-- Both layouts of a text get one verdict, places apart. -/
theorem placelessVerdict_eq (h : s.SameButLayout t) (path : String) (failFast : Bool)
    (entry : Entry) :
    placelessVerdict (verdictOf path ((Parser.ofCheck t path failFast).parse entry)) =
      placelessVerdict (verdictOf path ((Parser.ofCheck s path failFast).parse entry)) := by
  have ha : PlacesAlike s t (Parser.ofCheck s path failFast) (Parser.ofCheck t path failFast) :=
    ⟨rfl, rfl, rfl, rfl⟩
  obtain ⟨rs, hr, _, hp, hq⟩ := ha.parse h entry
  revert hr hp hq
  rcases (Parser.ofCheck s path failFast).parse entry with ⟨p', r⟩
  rcases (Parser.ofCheck t path failFast).parse entry with ⟨q', r'⟩
  intro hr hp hq
  cases hr with
  | ok _ =>
    have hl : q'.listeners.map Listener.placeless = p'.listeners.map Listener.placeless := by
      rw [hp.listeners, hq.listeners, Listener.placeless_hearEach, Listener.placeless_hearEach,
        Report.map_placeless_error s t]
      rfl
    simp only [verdictOf, placelessVerdict, Listener.allDiagnostics_placeless, hl]
  | error _ =>
    simp only [verdictOf, placelessVerdict, Failure.placeless, Report.placeless_error s t]

/-- Layout decides nothing. Over two streams with the same visible tokens, where angles of
one kind that stand side by side touch in both or in neither, every call from the same
place returns the same tree up to the places of tokens, or throws; it ends at the same
place; and it makes the same reports, each about the same visible token. So two texts
with such streams get one verdict. -/
theorem layout_decides_nothing (h : s.SameButLayout t) :
    (∀ p q : Parser, PlacesAlike s t p q → ∀ entry : Entry, ∃ rs : List Report,
      ResultsAlike s t rs TreesAlike (p.parse entry).2 (q.parse entry).2 ∧
        (q.parse entry).1.position = (p.parse entry).1.position ∧
        Tells s rs p (p.parse entry).1 ∧ Tells t rs q (q.parse entry).1) ∧
    ∀ text text' : String, TokenStream.ofString .folded text = .ok s →
      TokenStream.ofString .folded text' = .ok t →
      ∀ (path : String) (kind : FileKind) (failFast : Bool),
        placelessVerdict (checkSource path text' kind failFast) =
          placelessVerdict (checkSource path text kind failFast) := by
  constructor
  · intro p q ha entry
    exact ha.parse h entry
  · intro text text' hs ht path kind failFast
    rw [checkSource_eq kind failFast hs, checkSource_eq kind failFast ht]
    exact placelessVerdict_eq h path failFast kind.entry

/-- A shift and a missing semicolon, on one line and on several. -/
theorem layout_decides_nothing_shift :
    ∃ s t, TokenStream.ofString .folded "x = a >> b y = /* */ c;" = .ok s ∧
      TokenStream.ofString .folded "x=a\n>>b\ny // c\n=c;" = .ok t ∧ s.SameButLayout t ∧
      placelessVerdict (checkSource "a.apex" "x=a\n>>b\ny // c\n=c;" .script false) =
        placelessVerdict (checkSource "a.apex" "x = a >> b y = /* */ c;" .script false) := by
  obtain ⟨s, hs⟩ := TokenStream.ofString_ok .folded "x = a >> b y = /* */ c;"
  obtain ⟨t, ht⟩ := TokenStream.ofString_ok .folded "x=a\n>>b\ny // c\n=c;"
  have hsame : (TokenStream.ofString .folded "x = a >> b y = /* */ c;").toOption.bind (fun s =>
      (TokenStream.ofString .folded "x=a\n>>b\ny // c\n=c;").toOption.map fun t =>
        decide (s.SameButLayout t)) = some true := by
    decide +kernel
  rw [hs, ht] at hsame
  have h : s.SameButLayout t := of_decide_eq_true (Option.some.inj hsame)
  exact ⟨s, t, hs, ht, h, (layout_decides_nothing h).2 _ _ hs ht "a.apex" .script false⟩

end Checks

end ApexSyntax
