-- What a check without findings says. The parser reported nothing, so it matched
-- every visible token of the text. What the lexer could not read is reported to
-- nobody: the lexer of a check has no listeners.
import ApexSyntax.Proofs.Check.Calls
import ApexSyntax.Proofs.Lexer.Tiling
import ApexSyntax.Proofs.Parser.Silence

namespace ApexSyntax

/-! ## Kept errors -/

namespace Parser

/-- A lone collector keeps as many more diagnostics as the parser counts errors. -/
def CountsKept (p q : Parser) : Prop :=
  ∀ path echo kept, p.listeners = [.collecting path echo kept] →
    ∃ kept', q.listeners = [.collecting path echo kept'] ∧
      kept'.size + p.errorCount = kept.size + q.errorCount

theorem countsKept_of_eq {p q : Parser} (hl : q.listeners = p.listeners)
    (he : q.errorCount = p.errorCount) : CountsKept p q :=
  fun path echo kept h => ⟨kept, hl.trans h, by rw [he]⟩

theorem CountsKept.trans {p q r : Parser} (h : CountsKept p q) (h' : CountsKept q r) :
    CountsKept p r := by
  intro path echo kept hp
  obtain ⟨kept', hq, hs⟩ := h path echo kept hp
  obtain ⟨kept'', hr, hs'⟩ := h' path echo kept' hq
  exact ⟨kept'', hr, by omega⟩

theorem countsKept_report (p : Parser) (message : String) :
    CountsKept p (p.report message).1 := by
  intro path echo kept hp
  unfold report
  split
  · exact ⟨kept, hp, rfl⟩
  · refine ⟨kept.push (Diagnostic.ofError path (p.errorHere message)), ?_, ?_⟩
    · simp only [hp]
      rfl
    · simp only [Array.size_push]
      omega

theorem countsKept_kept : Kept CountsKept where
  refl _ := countsKept_of_eq rfl rfl
  trans := .trans
  take _ := countsKept_of_eq rfl rfl
  report := countsKept_report
  start _ _ := countsKept_of_eq rfl rfl
  wrap _ _ _ := countsKept_of_eq rfl rfl
  finish _ := countsKept_of_eq rfl rfl

theorem Leads.countsKept {allowed : Parser → Step → Prop} {ss : List Step} {p q : Parser}
    (h : Leads allowed ss p q) : CountsKept p q :=
  h.keeps countsKept_kept.refl (fun _ _ _ => CountsKept.trans) fun _ _ _ _ _ hp =>
    countsKept_kept.perform hp fun _ => countsKept_of_eq rfl rfl

end Parser

/-! ## Checks without findings -/

/-- A check finds nothing only when every visible token of the text was matched,
none of them skipped. Whether all of the text became tokens is another question:
it did exactly when the lexer reported nothing. -/
theorem clean_check_matches_all {path text : String} {kind : FileKind}
    (h : checkSource path text kind false = .ok []) :
    ∃ stream q tree, TokenStream.ofString .folded text = .ok stream ∧
      ((Parser.ofStream stream).addListener (.echoer path)).parse kind.entry = (q, .ok tree) ∧
      tree.errorCount = 0 ∧ tokensOf tree.leaves = stream.visible.toList ∧
      (stream.text = text ↔ (Lexer.ofString .folded text).readAll.2.errorCount = 0) := by
  obtain ⟨stream, hstream, htext⟩ := text_eq_iff .folded text
  let p : Parser := Parser.ofCheck stream path false
  obtain ⟨q, tree, hcall, hmoves, hend⟩ := Parser.exists_call (p := p) rfl kind.entry
  have hkept : Listener.allDiagnostics q.listeners = [] := by
    rw [checkSource_eq kind false hstream, hcall.returns] at h
    exact Except.ok.inj h
  have herrors : q.errorCount = 0 := by
    obtain ⟨r, hr, _, rfl⟩ := hcall.run_eq
    obtain ⟨kept, hl, hs⟩ := (Parser.leads_of_runWithin hr).countsKept path true #[] rfl
    rw [hl] at hkept
    simp [Listener.allDiagnostics, Listener.diagnostics] at hkept
    have h0 : p.errorCount = 0 := rfl
    simp [hkept, h0] at hs
    exact hs.symm
  refine ⟨stream, q, tree, hstream, hcall.returns, ?_, ?_, htext⟩
  · exact hcall.errorCount_eq_zero herrors
  · exact hcall.leaves_of_atEnd rfl hmoves (hend (by cases kind <;> rfl))

theorem eq_ok_of_toOption {ε α : Type} {r : Except ε α} {a : α} (h : r.toOption = some a) :
    r = .ok a := by
  cases r with
  | error e => cases h
  | ok b => cases h; rfl

theorem clean_check_of_class :
    checkSource "A.cls" "class A { }" .classFile false = .ok [] ∧
      ∃ stream, TokenStream.ofString .folded "class A { }" = .ok stream ∧
        stream.text = "class A { }" := by
  have h : checkSource "A.cls" "class A { }" .classFile false = .ok [] :=
    eq_ok_of_toOption (by decide +kernel)
  obtain ⟨stream, _, _, hs, _, _, _, htext⟩ := clean_check_matches_all h
  exact ⟨h, stream, hs, htext.2 (by decide +kernel)⟩

/-- A character that is no token passes: the check finds nothing, and the text
that was read is not the whole text. -/
theorem clean_check_drops_character :
    ¬ ∀ (path text : String) (kind : FileKind), checkSource path text kind false = .ok [] →
      (Lexer.ofString .folded text).readAll.2.errorCount = 0 ∧
        ∃ stream, TokenStream.ofString .folded text = .ok stream ∧ stream.text = text := by
  intro h
  have hclean : checkSource "A.cls" "class A { # }" .classFile false = .ok [] :=
    eq_ok_of_toOption (by decide +kernel)
  have herrors : (Lexer.ofString .folded "class A { # }").readAll.2.errorCount = 1 := by
    decide +kernel
  have hnone := (h "A.cls" "class A { # }" .classFile hclean).1
  rw [herrors] at hnone
  cases hnone

end ApexSyntax
