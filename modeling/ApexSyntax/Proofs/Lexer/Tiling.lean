-- Which characters of a text become tokens. Without an error they are all
-- characters; every error takes at least one character away.
import ApexSyntax.Proofs.Lexer.Reading

namespace ApexSyntax

/-! ## Characters that are still to be read -/

namespace Lexer

/-- The characters behind the lexer as they are written. -/
def ahead (l : Lexer) : List Char := l.reader.cursor.source.toList.drop l.index

theorem rest_eq_ahead (l : Lexer) : l.reader.rest = l.ahead.map l.reader.casing.show :=
  l.reader.rest_eq

theorem length_ahead (l : Lexer) : l.ahead.length = l.reader.rest.length := by
  rw [rest_eq_ahead, List.length_map]

theorem ahead_skip (l : Lexer) (n : Nat) : (l.skip n).ahead = l.ahead.drop n := by
  have hi : (l.skip n).index = min (l.index + n) l.reader.cursor.source.size := rfl
  have hs : (l.skip n).reader.cursor.source = l.reader.cursor.source := rfl
  rw [ahead, ahead, hi, hs, List.drop_drop]
  by_cases h : l.index + n ≤ l.reader.cursor.source.size
  · rw [Nat.min_eq_left h]
  · rw [Nat.min_eq_right (by omega), List.drop_of_length_le (by simp),
      List.drop_of_length_le (by simp; omega)]

/-- A token's text is what is written there. -/
theorem text_tokenOf (l : Lexer) (kind : Kind) (n : Nat) :
    (l.tokenOf kind n).text.toList = l.ahead.take n := by
  have h : (l.tokenOf kind n).text =
      String.ofList (l.reader.cursor.source.extract l.index (l.index + n)).toList := rfl
  rw [h, String.toList_ofList, Array.toList_extract, List.extract_eq_take_drop, ahead]
  simp

theorem ahead_ofString (casing : Text.Casing) (text : String) :
    (Lexer.ofString casing text).ahead = text.toList := by
  have h : (Lexer.ofString casing text).ahead = text.toList.toArray.toList.drop 0 := rfl
  rw [h, List.drop_zero]

end Lexer

/-! ## Characters of tokens -/

/-- The characters of some tokens, joined. -/
def charsOf (ts : List Token) : List Char := ts.flatMap fun t => t.text.toList

@[simp] theorem charsOf_cons (t : Token) (ts : List Token) :
    charsOf (t :: ts) = t.text.toList ++ charsOf ts := rfl

theorem charsOf_numbered (k : Nat) (ts : List Token) : charsOf (numbered k ts) = charsOf ts := by
  rw [charsOf, charsOf, List.flatMap_def, List.flatMap_def, map_numbered fun _ _ => rfl]

theorem toList_text (s : TokenStream) : s.text.toList = charsOf s.tokens.toList := by
  have h : ∀ (ts : List Token) (acc : String),
      (ts.foldl (fun acc t => acc ++ t.text) acc).toList = acc.toList ++ charsOf ts := by
    intro ts
    induction ts with
    | nil => simp [charsOf]
    | cons t ts ih =>
      intro acc
      rw [List.foldl_cons, ih, charsOf_cons, String.toList_append, List.append_assoc]
  rw [TokenStream.text, ← Array.foldl_toList, h]
  simp

/-- The tokens of a text are made of its characters; each error loses some. -/
structure Covers (l : Lexer) (ts : List Token) (l' : Lexer) : Prop where
  errorCount_le : l.errorCount ≤ l'.errorCount
  length_le : (charsOf ts).length + (l'.errorCount - l.errorCount) ≤ l.ahead.length
  all : l'.errorCount = l.errorCount → charsOf ts = l.ahead

theorem Lexes.covers {l l' : Lexer} {ts : List Token} (h : Lexes l ts l') : Covers l ts l' := by
  induction h with
  | @done l hr =>
    have ha : l.ahead = [] := by
      rw [← List.length_eq_zero_iff, Lexer.length_ahead, hr]
      rfl
    exact ⟨Nat.le_refl _, by simp [charsOf], fun _ => ha.symm⟩
  | @token l l' ts c rest kind n hr hs _ ih =>
    have he : (l.skip n).errorCount = l.errorCount := rfl
    obtain ⟨hle, hlen, hall⟩ := ih
    rw [he] at hle hlen hall
    rw [Lexer.ahead_skip] at hlen hall
    refine ⟨hle, ?_, fun heq => ?_⟩
    · have hb := Lexeme.scan_bounds c rest
      rw [hs] at hb
      simp only [Lexeme.size] at hb
      rw [charsOf_cons, List.length_append, Lexer.text_tokenOf, List.length_take]
      rw [List.length_drop] at hlen
      omega
    · rw [charsOf_cons, Lexer.text_tokenOf, hall heq, List.take_append_drop]
  | @unreadable l l' ts c rest shown skipped hr hs _ ih =>
    have he : ((l.skip skipped).report (l.unreadableError shown)).errorCount =
        l.errorCount + 1 := rfl
    have ha : ((l.skip skipped).report (l.unreadableError shown)).ahead = l.ahead.drop skipped :=
      l.ahead_skip skipped
    obtain ⟨hle, hlen, _⟩ := ih
    have hb := Lexeme.scan_bounds c rest
    rw [hs] at hb
    simp only [Lexeme.size] at hb
    have hl : l.ahead.length = rest.length + 1 := by
      rw [Lexer.length_ahead, hr, List.length_cons]
    rw [he] at hle hlen
    rw [ha, List.length_drop] at hlen
    exact ⟨by omega, by omega, fun heq => by omega⟩

/-- The tokens are all characters exactly when no error is reported. -/
theorem Lexes.charsOf_eq_iff {l l' : Lexer} {ts : List Token} (h : Lexes l ts l') :
    charsOf ts = l.ahead ↔ l'.errorCount = l.errorCount := by
  obtain ⟨hle, hlen, hall⟩ := h.covers
  refine ⟨fun heq => ?_, hall⟩
  rw [heq] at hlen
  omega

theorem Lexes.text_eq_iff {l l' : Lexer} {ts : List Token} (h : Lexes l ts l') {s : TokenStream}
    (hs : s.tokens = (numbered 0 ts).toArray) {text : String} (ha : l.ahead = text.toList) :
    s.text = text ↔ l'.errorCount = l.errorCount := by
  rw [← String.toList_inj, toList_text, hs, charsOf_numbered, ← ha]
  exact h.charsOf_eq_iff

/-- The tokens of a text are the whole text exactly when no error was reported. -/
theorem text_eq_iff (casing : Text.Casing) (text : String) :
    ∃ s, TokenStream.ofString casing text = .ok s ∧
      (s.text = text ↔ (Lexer.ofString casing text).readAll.2.errorCount = 0) := by
  have hl : Listener.stopsAt (Lexer.ofString casing text).listeners = false := rfl
  obtain ⟨ts, l', s, hlex, hs, htokens, _⟩ := TokenStream.ofLexer_lexes hl
  obtain ⟨us, l'', hread, hlex'⟩ := Lexer.readAll_lexes hl
  obtain ⟨_, rfl⟩ := hlex.unique hlex'
  refine ⟨s, hs, ?_⟩
  rw [hread]
  exact hlex.text_eq_iff htokens (Lexer.ahead_ofString casing text)

end ApexSyntax
