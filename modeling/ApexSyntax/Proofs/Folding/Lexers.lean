-- A lexer that folds what it sees and a lexer over the folded text take the same
-- pieces: every decision is about what is seen, which is the same for both.
import ApexSyntax.Proofs.Folding.Texts
import ApexSyntax.Proofs.Lexer.Reading

namespace ApexSyntax

open Text

/-- A lexer that folds, and one at the same place of the folded text. -/
structure LexersAgree (l m : Lexer) : Prop where
  folds : l.reader.casing = .folded
  exact : m.reader.casing = .exact
  source : m.reader.cursor.source = l.reader.cursor.source.map foldChar
  index : m.reader.cursor.index = l.reader.cursor.index
  place : m.place = l.place
  errorCount : m.errorCount = l.errorCount
  listeners : m.listeners.map Listener.folded = l.listeners.map Listener.folded

namespace LexersAgree

variable {l m : Lexer}

theorem stopsAt_eq (h : LexersAgree l m) :
    Listener.stopsAt m.listeners = Listener.stopsAt l.listeners := by
  rw [← Listener.stopsAt_folded, h.listeners, Listener.stopsAt_folded]

/-- Both see the same characters. -/
theorem rest_eq (h : LexersAgree l m) : m.reader.rest = l.reader.rest := by
  have hl : Casing.show .folded = foldChar := rfl
  have hm : Casing.show .exact = id := rfl
  rw [l.reader.rest_eq, m.reader.rest_eq, h.folds, h.exact, h.source, h.index, hl, hm]
  simp

theorem skip (h : LexersAgree l m) (n : Nat) : LexersAgree (l.skip n) (m.skip n) where
  folds := h.folds
  exact := h.exact
  source := h.source
  index := by
    have hs : m.reader.cursor.size = l.reader.cursor.size := by
      simp [Cursor.size, h.source]
    simp only [Lexer.skip, Reader.skip, Cursor.index_seek, h.index, hs]
  place := by simp only [Lexer.skip, h.place, h.rest_eq]
  errorCount := h.errorCount
  listeners := h.listeners

/-- The next characters as they are written agree up to folding. -/
theorem peek_eq (h : LexersAgree l m) (n : Nat) :
    m.reader.peek n = foldText (l.reader.peek n) := by
  rw [← String.toList_inj, toList_foldText, Reader.peek, Reader.peek, h.source, h.index]
  simp

theorem tokenOf_eq (h : LexersAgree l m) {kind : Kind} (hk : kind ≠ .eof) (n : Nat) :
    m.tokenOf kind n = (l.tokenOf kind n).folded := by
  have he : (l.tokenOf kind n).isEof = false := by simp [Token.isEof, Lexer.tokenOf, hk]
  rw [Token.folded, he]
  simp [Lexer.tokenOf, h.peek_eq, h.rest_eq, h.place, Lexer.index, h.index]

theorem unreadableError_folded (h : LexersAgree l m) (n : Nat) :
    (m.unreadableError n).folded = (l.unreadableError n).folded := by
  simp [Lexer.unreadableError, SyntaxError.folded, h.place, h.peek_eq, foldText_append,
    oneLine_foldText]

theorem report (h : LexersAgree l m) {e e' : SyntaxError} (he : e'.folded = e.folded) :
    LexersAgree (l.report e) (m.report e') where
  folds := h.folds
  exact := h.exact
  source := h.source
  index := h.index
  place := h.place
  errorCount := by simp only [Lexer.report, h.errorCount]
  listeners := by
    simp only [Lexer.report]
    rw [Listener.folded_hearAll, Listener.folded_hearAll, he, h.listeners]

/-- The lexers stay together over the whole text. -/
theorem lexes {l' : Lexer} {ts : List Token} (h : LexersAgree l m) (hl : Lexes l ts l') :
    ∃ m', Lexes m (ts.map Token.folded) m' ∧ LexersAgree l' m' := by
  induction hl generalizing m with
  | @done l hr =>
    refine ⟨{ m with done := true }, .done (h.rest_eq.trans hr), ?_⟩
    exact ⟨h.folds, h.exact, h.source, h.index, h.place, h.errorCount, h.listeners⟩
  | @token l l' ts c rest kind n hr hs _ ih =>
    obtain ⟨m', hm, h'⟩ := ih (h.skip n)
    refine ⟨m', ?_, h'⟩
    rw [List.map_cons, ← h.tokenOf_eq (Lexeme.kind_scan_ne_eof hs)]
    exact .token (h.rest_eq.trans hr) hs hm
  | @unreadable l l' ts c rest shown skipped hr hs _ ih =>
    obtain ⟨m', hm, h'⟩ := ih ((h.skip skipped).report (h.unreadableError_folded shown))
    exact ⟨m', .unreadable (h.rest_eq.trans hr) hs hm, h'⟩

theorem eofToken_eq (h : LexersAgree l m) : m.eofToken = l.eofToken := by
  simp only [Lexer.eofToken, Lexer.index, h.place, h.index]

/-- Both lexers read the same tokens up to the folding of their texts, and the
same end. They report the same errors up to folding. -/
theorem readAll (h : LexersAgree l m)
    (hl : Listener.stopsAt l.listeners = false) :
    LexersAgree l.readAll.2 m.readAll.2 ∧
      ∃ (ts : List Token) (eof : Token), eof.isEof ∧ l.readAll.1 = ts ++ [eof] ∧
        m.readAll.1 = ts.map (fun t => { t with text := foldText t.text }) ++ [eof] := by
  have hm : Listener.stopsAt m.listeners = false := h.stopsAt_eq.trans hl
  obtain ⟨ts, l', hread, hlex⟩ := Lexer.readAll_lexes hl
  obtain ⟨us, m', hread', hlex'⟩ := Lexer.readAll_lexes hm
  obtain ⟨m'', hlex'', hagree⟩ := h.lexes hlex
  obtain ⟨rfl, rfl⟩ := hlex''.unique hlex'
  have hts : ts.map Token.folded = ts.map fun t => { t with text := foldText t.text } := by
    apply List.map_congr_left
    intro t ht
    have he : t.isEof = false := by simp [Token.isEof, hlex.kind_ne_eof t ht]
    rw [Token.folded, he, if_neg Bool.false_ne_true]
  rw [hread, hread']
  exact ⟨hagree, ts, l'.eofToken, rfl, rfl, by rw [hts, hagree.eofToken_eq]⟩

theorem ofString (text : String) (ls : List Listener) :
    LexersAgree { Lexer.ofString .folded text with listeners := ls }
      { Lexer.ofString .exact (foldText text) with listeners := ls } where
  folds := rfl
  exact := rfl
  source := by simp [Lexer.ofString, Reader.ofString, Cursor.ofString, toList_foldText]
  index := rfl
  place := rfl
  errorCount := rfl
  listeners := rfl

end LexersAgree

/-! ## Streams -/

theorem numbered_folded (k : Nat) (ts : List Token) :
    numbered k (ts.map Token.folded) = (numbered k ts).map Token.folded := by
  induction ts generalizing k with
  | nil => rfl
  | cons t ts ih =>
    rw [List.map_cons, numbered, numbered, List.map_cons, ih]
    congr 1
    simp only [Token.folded]
    split <;> simp_all [Token.isEof]

namespace TokenStream

/-- The stream of the folded text. -/
def folded (s : TokenStream) : TokenStream where
  tokens := s.tokens.map Token.folded
  eof := s.eof
  visible := s.visible.map Token.folded
  eof_eq := by
    rw [Array.size_map]
    exact s.eof_eq
  kind_tokens := by
    intro t ht
    obtain ⟨u, hu, rfl⟩ := Array.mem_map.1 ht
    rw [Token.kind_folded]
    exact s.kind_tokens u hu
  visible_eq := by
    rw [s.visible_eq, Array.filter_map]
    simp [Function.comp_def]

theorem ext_of_tokens {s t : TokenStream} (h : s.tokens = t.tokens) (he : s.eof = t.eof) :
    s = t := by
  have hv : s.visible = t.visible := by rw [s.visible_eq, t.visible_eq, h]
  obtain ⟨tokens, eof, visible, _, _, _⟩ := s
  obtain ⟨tokens', eof', visible', _, _, _⟩ := t
  obtain rfl : tokens = tokens' := h
  obtain rfl : eof = eof' := he
  obtain rfl : visible = visible' := hv
  rfl

/-- What agrees makes a stream and the folded one. -/
theorem ofLexer_folded {l m : Lexer} (h : LexersAgree l m)
    (hl : Listener.stopsAt l.listeners = false) :
    ∃ s, ofLexer l = .ok s ∧ ofLexer m = .ok s.folded := by
  have hm : Listener.stopsAt m.listeners = false := h.stopsAt_eq.trans hl
  obtain ⟨ts, l', s, hlex, hs, htokens, heof⟩ := ofLexer_lexes hl
  obtain ⟨us, m', s', hlex', hs', htokens', heof'⟩ := ofLexer_lexes hm
  obtain ⟨m'', hlex'', hagree⟩ := h.lexes hlex
  obtain ⟨rfl, rfl⟩ := hlex''.unique hlex'
  refine ⟨s, hs, hs'.trans (congrArg Except.ok ?_)⟩
  have hf : s.folded.tokens = s.tokens.map Token.folded := rfl
  have ht : s'.tokens = s.folded.tokens := by
    rw [htokens', numbered_folded, hf, htokens, List.map_toArray]
  refine ext_of_tokens ht ?_
  have he : s.folded.eof = s.eof := rfl
  rw [heof', ht, hagree.eofToken_eq, he, heof, hf, Array.size_map]

/-- The folded text makes the folded stream. -/
theorem ofString_foldText (text : String) :
    ∃ s, ofString .folded text = .ok s ∧ ofString .exact (foldText text) = .ok s.folded :=
  ofLexer_folded (LexersAgree.ofString text []) rfl

end TokenStream

end ApexSyntax
