-- Calls of a lexer to which nobody listens that throws: each gives a token, so
-- its whole text can be read into a stream.
import ApexSyntax.Token.Stream

namespace ApexSyntax

namespace Lexer

@[simp] theorem listeners_skip (l : Lexer) (n : Nat) : (l.skip n).listeners = l.listeners := rfl

theorem stopsAt_report (l : Lexer) (e : SyntaxError) :
    Listener.stopsAt (l.report e).listeners = Listener.stopsAt l.listeners :=
  Listener.stopsAt_hearAll e l.listeners

/-- Without a throwing listener a call gives a token, and nobody throws later. -/
theorem nextWithin_ok (n : Nat) {l : Lexer} (h : Listener.stopsAt l.listeners = false) :
    ∃ l' t, l.nextWithin n = (l', .ok t) ∧ Listener.stopsAt l'.listeners = false := by
  induction n generalizing l with
  | zero => exact ⟨_, _, rfl, h⟩
  | succ n ih =>
    unfold nextWithin
    split
    · exact ⟨_, _, rfl, h⟩
    · split
      · exact ⟨_, _, rfl, h⟩
      · rw [if_neg (by simp [h])]
        exact ih (by rw [stopsAt_report, listeners_skip, h])

theorem next_ok {l : Lexer} (h : Listener.stopsAt l.listeners = false) :
    ∃ l' t, l.next = (l', .ok t) ∧ Listener.stopsAt l'.listeners = false :=
  nextWithin_ok _ h

/-- A lexer at the start of some characters, without listeners. -/
def ofChars (casing : Text.Casing) (cs : List Char) : Lexer where
  reader := ⟨casing, ⟨cs.toArray, 0, Nat.zero_le _⟩, cs.map casing.show, by simp⟩
  place := .start
  listeners := []
  errorCount := 0
  done := false

end Lexer

namespace TokenStream

theorem drainWithin_ok (n : Nat) {l : Lexer} (h : Listener.stopsAt l.listeners = false)
    (tokens : Array Token) (ht : ∀ t ∈ tokens, t.kind ≠ .eof) :
    ∃ s, drainWithin n l tokens ht = .ok s := by
  induction n generalizing l tokens with
  | zero => exact ⟨_, rfl⟩
  | succ n ih =>
    obtain ⟨l', t, hn, h'⟩ := Lexer.next_ok h
    simp only [drainWithin, hn]
    split
    · exact ⟨_, rfl⟩
    · exact ih h' _ _

/-- Every text can be read. -/
theorem ofString_ok (casing : Text.Casing) (text : String) :
    ∃ s, ofString casing text = .ok s :=
  drainWithin_ok _ rfl _ _

/-- A literal text is its characters by definition, so reading them here spares the
kernel the bytes of the text. -/
theorem ofString_eq_ofChars (casing : Text.Casing) (text : String) :
    ofString casing text = ofLexer (.ofChars casing text.toList) := rfl

/-- What is found of a text by reading it holds of the tokens of the text. -/
theorem exists_ofString {casing : Text.Casing} {text : String} {P : TokenStream → Prop}
    [DecidablePred P]
    (h : (ofString casing text).toOption.map (fun s => decide (P s)) = some true) :
    ∃ s, ofString casing text = .ok s ∧ P s := by
  obtain ⟨s, hs⟩ := ofString_ok casing text
  rw [hs] at h
  exact ⟨s, hs, of_decide_eq_true (Option.some.inj h)⟩

/-- A text is read to tell what holds of its tokens. -/
instance (casing : Text.Casing) (text : String) (P : TokenStream → Prop) [DecidablePred P] :
    Decidable (∃ s, ofString casing text = .ok s ∧ P s) :=
  match h : ofString casing text with
  | .ok s => decidable_of_iff (P s) ⟨fun hs => ⟨s, rfl, hs⟩, fun ⟨_, hs, hp⟩ => by cases hs; exact hp⟩
  | .error _ => isFalse fun ⟨_, hs, _⟩ => by cases hs

end TokenStream

end ApexSyntax
