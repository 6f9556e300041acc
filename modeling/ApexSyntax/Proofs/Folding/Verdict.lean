-- Folding while a text is read is the same as reading the folded text: the same
-- tokens, trees and errors up to folding, and so the same verdict for two
-- spellings of a text.
import ApexSyntax.Proofs.Check.Calls
import ApexSyntax.Proofs.Folding.Parsers

namespace ApexSyntax

open Text

/-! ## Checks -/

def Failure.folded : Failure → Failure
  | .aborted path e => .aborted path e.folded
  | f => f

/-- What a check says, up to folding. -/
def foldedVerdict : Except Failure (List Diagnostic) → Except Failure (List Diagnostic)
  | .ok ds => .ok (ds.map Diagnostic.folded)
  | .error f => .error f.folded

theorem foldedVerdict_eq {p q : Parser} (h : ParsersAgree p q) (path : String) (entry : Entry) :
    foldedVerdict (verdictOf path (q.parse entry)) =
      foldedVerdict (verdictOf path (p.parse entry)) := by
  obtain ⟨ha, hr⟩ := h.parse entry
  revert ha hr
  rcases p.parse entry with ⟨p', r⟩
  rcases q.parse entry with ⟨q', r'⟩
  intro ha hr
  cases hr with
  | ok _ =>
    simp only [verdictOf, foldedVerdict, ← Listener.allDiagnostics_folded, ha.listeners]
  | error he => simp only [verdictOf, foldedVerdict, Failure.folded, he]

/-- A parser over a stream and one over the folded stream agree at their starts. -/
theorem ParsersAgree.ofStream (s : TokenStream) (ls : List Listener) :
    ParsersAgree { Parser.ofStream s with listeners := ls }
      { Parser.ofStream s.folded with listeners := ls } :=
  ⟨rfl, rfl, rfl, rfl, rfl, Builder.folded_empty.symm⟩

/-- A check of a text says what a call on the folded stream says. -/
theorem foldedVerdict_checkSource {text : String} {s : TokenStream} (path : String)
    (kind : FileKind) (failFast : Bool) (hs : TokenStream.ofString .folded text = .ok s) :
    foldedVerdict (checkSource path text kind failFast) =
      foldedVerdict (verdictOf path ((Parser.ofCheck s.folded path failFast).parse kind.entry)) := by
  rw [checkSource_eq kind failFast hs]
  exact (foldedVerdict_eq (ParsersAgree.ofStream s _) path kind.entry).symm

/-- Two spellings of a text get one verdict. -/
theorem checkSource_foldText {text text' : String} (h : foldText text' = foldText text)
    (path : String) (kind : FileKind) (failFast : Bool) :
    foldedVerdict (checkSource path text' kind failFast) =
      foldedVerdict (checkSource path text kind failFast) := by
  obtain ⟨s, hs, hexact⟩ := TokenStream.ofString_foldText text
  obtain ⟨s', hs', hexact'⟩ := TokenStream.ofString_foldText text'
  have heq : s'.folded = s.folded := by
    rw [h, hexact] at hexact'
    exact (Except.ok.inj hexact').symm
  rw [foldedVerdict_checkSource path kind failFast hs,
    foldedVerdict_checkSource path kind failFast hs', heq]

/-! ## Reading a folded text -/

/-- Folding while a text is read is reading the folded text. Without a throwing
listener, the tokens are the same up to the folding of their texts, and the end
is the same. The errors are heard at the same places. Every entry parses both
streams to the same tree and the same errors up to folding, and two spellings
of a text get one verdict. -/
theorem folding_reads_folded_text (text : String) (ls : List Listener)
    (hls : Listener.stopsAt ls = false) :
    let l : Lexer := { Lexer.ofString .folded text with listeners := ls }
    let m : Lexer := { Lexer.ofString .exact (foldText text) with listeners := ls }
    (∃ ts eof, eof.isEof ∧ l.readAll.1 = ts ++ [eof] ∧
      m.readAll.1 = ts.map (fun t => { t with text := foldText t.text }) ++ [eof]) ∧
    m.readAll.2.errorCount = l.readAll.2.errorCount ∧
    m.readAll.2.listeners.map Listener.folded = l.readAll.2.listeners.map Listener.folded ∧
    (∃ s, TokenStream.ofLexer l = .ok s ∧ TokenStream.ofLexer m = .ok s.folded ∧
      ∀ (entry : Entry) (heard : List Listener),
        let a := ({ Parser.ofStream s with listeners := heard } : Parser).parse entry
        let b := ({ Parser.ofStream s.folded with listeners := heard } : Parser).parse entry
        ResultsAgree TreesAgree a.2 b.2 ∧ b.1.errorCount = a.1.errorCount ∧
          b.1.listeners.map Listener.folded = a.1.listeners.map Listener.folded) ∧
    ∀ text', foldText text' = foldText text → ∀ (path : String) (kind : FileKind) (failFast : Bool),
      foldedVerdict (checkSource path text' kind failFast) =
        foldedVerdict (checkSource path text kind failFast) := by
  intro l m
  have h : LexersAgree l m := LexersAgree.ofString text ls
  obtain ⟨hread, htokens⟩ := h.readAll hls
  obtain ⟨s, hs, hs'⟩ := TokenStream.ofLexer_folded h hls
  refine ⟨htokens, hread.errorCount, hread.listeners, ⟨s, hs, hs', ?_⟩, ?_⟩
  · intro entry heard
    obtain ⟨ha, hr⟩ := (ParsersAgree.ofStream s heard).parse entry
    exact ⟨hr, ha.errorCount, ha.listeners⟩
  · intro text' h' path kind failFast
    exact checkSource_foldText h' path kind failFast

/-- A class in large and in small letters. -/
theorem folding_reads_folded_class :
    Listener.stopsAt [.counter] = false ∧ foldText "CLASS A { }" = foldText "class a { }" ∧
      foldedVerdict (checkSource "A.cls" "CLASS A { }" .classFile true) =
        foldedVerdict (checkSource "A.cls" "class a { }" .classFile true) := by
  have hf : foldText "CLASS A { }" = foldText "class a { }" := by
    rw [← String.toList_inj, toList_foldText, toList_foldText]
    decide +kernel
  obtain ⟨_, _, _, _, h⟩ := folding_reads_folded_text "class a { }" [.counter] rfl
  exact ⟨rfl, hf, h "CLASS A { }" hf "A.cls" .classFile true⟩

/-- The end is no piece of the text: its mark is not folded. -/
theorem folding_keeps_end_mark :
    ¬ ∀ text : String, (Lexer.ofString .exact (foldText text)).readAll.1 =
      (Lexer.ofString .folded text).readAll.1.map
        fun t => { t with text := foldText t.text } := by
  intro h
  have h0 := h ""
  revert h0
  decide +kernel

end ApexSyntax
