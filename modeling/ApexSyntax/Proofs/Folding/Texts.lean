-- Folding of letters in tokens, messages and everything that is kept of them.
-- Two results are the same up to folding when folding both gives one.
import ApexSyntax.Listener
import ApexSyntax.Text.Cursor
import ApexSyntax.Token.Basic

namespace ApexSyntax

open Text

/-! ## Characters and texts -/

namespace Text

/-- A capital letter is one of twenty-six. -/
theorem exists_of_isCapital {c : Char} (h : 'A' ≤ c ∧ c ≤ 'Z') :
    ∃ i : Fin 26, c = Char.ofNat (65 + i) := by
  have h1 : 65 ≤ c.toNat := h.1
  have h2 : c.toNat ≤ 90 := h.2
  refine ⟨⟨c.toNat - 65, by omega⟩, ?_⟩
  have h3 : 65 + (c.toNat - 65) = c.toNat := by omega
  simp only [h3, Char.ofNat_toNat]

/-- A capital letter becomes a letter that is none, and no layout. -/
theorem foldChar_capital (i : Fin 26) :
    foldChar (foldChar (Char.ofNat (65 + i))) = foldChar (Char.ofNat (65 + i)) ∧
      onOneLine (foldChar (Char.ofNat (65 + i))) =
        (onOneLine (Char.ofNat (65 + i))).map foldChar := by
  revert i
  decide

theorem foldChar_of_not_capital {c : Char} (h : ¬('A' ≤ c ∧ c ≤ 'Z')) : foldChar c = c := by
  rw [foldChar, if_neg h]

@[simp] theorem foldChar_foldChar (c : Char) : foldChar (foldChar c) = foldChar c := by
  by_cases h : 'A' ≤ c ∧ c ≤ 'Z'
  · obtain ⟨i, rfl⟩ := exists_of_isCapital h
    exact (foldChar_capital i).1
  · rw [foldChar_of_not_capital h, foldChar_of_not_capital h]

/-- Line breaks and tabs are no letters. -/
theorem onOneLine_foldChar (c : Char) : onOneLine (foldChar c) = (onOneLine c).map foldChar := by
  by_cases h : 'A' ≤ c ∧ c ≤ 'Z'
  · obtain ⟨i, rfl⟩ := exists_of_isCapital h
    exact (foldChar_capital i).2
  · rw [foldChar_of_not_capital h]
    unfold onOneLine
    split
    · rfl
    · rfl
    · rfl
    · rw [List.map_singleton, foldChar_of_not_capital h]

theorem toList_foldText (text : String) : (foldText text).toList = text.toList.map foldChar := by
  rw [foldText, String.toList_map]

theorem foldText_append (a b : String) : foldText (a ++ b) = foldText a ++ foldText b := by
  rw [← String.toList_inj]
  simp [toList_foldText]

@[simp] theorem foldText_foldText (text : String) : foldText (foldText text) = foldText text := by
  rw [← String.toList_inj]
  simp [toList_foldText]

theorem oneLine_foldText (text : String) : oneLine (foldText text) = foldText (oneLine text) := by
  rw [← String.toList_inj, toList_foldText, oneLine, oneLine, String.toList_ofList,
    String.toList_ofList, toList_foldText]
  induction text.toList with
  | nil => rfl
  | cons c cs ih =>
    rw [List.map_cons, List.flatMap_cons, List.flatMap_cons, List.map_append, ih,
      onOneLine_foldChar]

end Text

/-! ## Tokens -/

namespace Token

/-- The token of the folded text. The end has no text of its own. -/
def folded (t : Token) : Token := if t.isEof then t else { t with text := foldText t.text }

@[simp] theorem kind_folded (t : Token) : t.folded.kind = t.kind := by unfold folded; split <;> rfl

@[simp] theorem word_folded (t : Token) : t.folded.word = t.word := by unfold folded; split <;> rfl

@[simp] theorem line_folded (t : Token) : t.folded.line = t.line := by unfold folded; split <;> rfl

@[simp] theorem column_folded (t : Token) : t.folded.column = t.column := by
  unfold folded; split <;> rfl

@[simp] theorem index_folded (t : Token) : t.folded.index = t.index := by
  unfold folded; split <;> rfl

@[simp] theorem isEof_folded (t : Token) : t.folded.isEof = t.isEof := by
  simp [isEof]

@[simp] theorem isHidden_folded (t : Token) : t.folded.isHidden = t.isHidden := by
  simp [isHidden]

@[simp] theorem isIdentifier_folded (t : Token) : t.folded.isIdentifier = t.isIdentifier := by
  simp [isIdentifier]

@[simp] theorem isWord_folded (t : Token) : t.folded.isWord = t.isWord := by simp [isWord]

theorem foldText_quoted (t : Token) : foldText t.folded.quoted = foldText t.quoted := by
  unfold folded
  split
  · rfl
  · rw [quoted, quoted, foldText_append, foldText_append, foldText_append, foldText_append,
      oneLine_foldText, foldText_foldText]

end Token

/-! ## Errors and listeners -/

def SyntaxError.folded (e : SyntaxError) : SyntaxError := { e with message := foldText e.message }

def Diagnostic.folded (d : Diagnostic) : Diagnostic := { d with message := foldText d.message }

theorem Diagnostic.folded_ofError (path : String) (e : SyntaxError) :
    (ofError path e).folded = ofError path e.folded := rfl

namespace Listener

/-- The listener with everything it has kept folded. -/
def folded : Listener → Listener
  | collecting path echo kept => collecting path echo (kept.map Diagnostic.folded)
  | l => l

@[simp] theorem isThrowing_folded (l : Listener) : l.folded.isThrowing = l.isThrowing := by
  cases l <;> rfl

theorem folded_hear (e : SyntaxError) (l : Listener) :
    (l.hear e).folded = l.folded.hear e.folded := by
  cases l with
  | throwing => rfl
  | collecting path echo kept => simp [hear, folded, Diagnostic.folded_ofError]
  | counting heard => rfl

theorem stopsAt_folded (ls : List Listener) : stopsAt (ls.map folded) = stopsAt ls := by
  simp [stopsAt, Function.comp_def]

/-- What is heard up to folding depends on the error up to folding only. -/
theorem folded_hearAll (e : SyntaxError) (ls : List Listener) :
    (hearAll e ls).map folded = hearAll e.folded (ls.map folded) := by
  induction ls with
  | nil => rfl
  | cons l ls ih =>
    rw [hearAll, List.map_cons, hearAll, isThrowing_folded]
    split
    · rw [List.map_cons]
    · rw [List.map_cons, folded_hear, ih]

theorem allDiagnostics_folded (ls : List Listener) :
    allDiagnostics (ls.map folded) = (allDiagnostics ls).map Diagnostic.folded := by
  induction ls with
  | nil => rfl
  | cons l ls ih =>
    have hl : l.folded.diagnostics.toList = l.diagnostics.toList.map Diagnostic.folded := by
      cases l <;> simp [folded, diagnostics]
    simp only [allDiagnostics] at ih
    simp [allDiagnostics, hl, ih]

end Listener

end ApexSyntax
