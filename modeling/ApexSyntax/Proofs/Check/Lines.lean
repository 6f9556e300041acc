-- Errors for people. What is told of a text stays on one line, whatever the text is. So an
-- error is printed as one line where the path to its file has no line break.
import ApexSyntax.Proofs.Lexer.Answers
import ApexSyntax.Proofs.Parser.FailFast
import ApexSyntax.Proofs.Parser.Messages
import ApexSyntax.Proofs.Parser.Silence
import ApexSyntax.Report

namespace ApexSyntax

open Text

/-! ## Lexers, parsers and checks -/

/-- A lexer that does not come to the end of its text has thrown an error of one line. -/
theorem TokenStream.isOneLine_of_drainWithin (fuel : Nat) {l : Lexer} {tokens : Array Token}
    {h : ∀ t ∈ tokens, t.kind ≠ .eof} {e : SyntaxError}
    (hd : drainWithin fuel l tokens h = .error e) : isOneLine e.message = true := by
  induction fuel generalizing l tokens with
  | zero => cases hd
  | succ fuel ih =>
    rw [drainWithin] at hd
    split at hd
    · rename_i hnext
      cases hd
      obtain ⟨es, htold, hthrown⟩ := l.exists_told_next
      exact htold.oneLine e (hthrown e (congrArg Prod.snd hnext))
    · split at hd
      · cases hd
      · exact ih hd

/-- A call tells errors of one line. -/
theorem Parser.exists_told_parse (p : Parser) (entry : Entry) : ∃ es,
    Told p.listeners p.errorCount es
      (p.parse entry).1.listeners (p.parse entry).1.errorCount ∧
    ∀ e, (p.parse entry).2 = .error e → e ∈ es := by
  obtain ⟨es, htold, hthrown⟩ := exists_told_runWithin (p := p.fresh) p.fuel
    [entry.step] (by rw [List.all_cons, entry.isOneLine_step]; rfl)
  have hrun : p.run entry = runWithin p.fuel [entry.step] p.fresh := rfl
  rw [← hrun] at htold hthrown
  refine ⟨es, ?_, fun e he => ?_⟩
  · rw [listeners_parse, errorCount_parse]
    exact htold
  · exact hthrown e (congrArg Prod.snd (run_of_parse_error (Prod.ext rfl he)))

/-- A check finds errors of one line, and keeps each under the path of its text. -/
theorem exists_checkSource_oneLine (path text : String) (kind : FileKind) :
    ∃ ds, checkSource path text kind false = .ok ds ∧
      ∀ d ∈ ds, d.path = path ∧ isOneLine d.message = true := by
  obtain ⟨ds, hds, -⟩ := Parser.checkSource_failFast path text kind
  obtain ⟨stream, hstream⟩ := TokenStream.ofString_ok .folded text
  obtain ⟨es, htold, -⟩ := (Parser.ofCheck stream path false).exists_told_parse kind.entry
  refine ⟨ds, hds, ?_⟩
  have heach : ds = es.map (Diagnostic.ofError path) := by
    rw [checkSource_eq kind false hstream] at hds
    rcases hcall : (Parser.ofCheck stream path false).parse kind.entry with ⟨q, e | tree⟩
    · rw [hcall] at hds
      cases hds
    · rw [hcall] at hds htold
      rw [← Except.ok.inj hds, htold.listeners]
      exact Parser.allDiagnostics_hearEach es path true
  rw [heach, List.forall_mem_map]
  exact fun e he => ⟨rfl, htold.oneLine e he⟩

/-- A check that fails fast has met an error of one line. -/
theorem isOneLine_of_checkSource_error {path text : String} {kind : FileKind} {failFast : Bool}
    {cause : Failure} (h : checkSource path text kind failFast = .error cause) :
    ∃ e, cause = .aborted path e ∧ isOneLine e.message = true := by
  obtain ⟨ds, hds, heach⟩ := exists_checkSource_oneLine path text kind
  obtain ⟨kept, hkept, hfast⟩ := Parser.checkSource_failFast path text kind
  obtain rfl := Except.ok.inj (hds.symm.trans hkept)
  cases failFast with
  | false => rw [hds] at h; cases h
  | true =>
    rw [hfast] at h
    cases ds with
    | nil => cases h
    | cons d ds =>
      cases h
      exact ⟨d.error, rfl, (heach d List.mem_cons_self).2⟩

/-! ## Printed errors -/

/-- The path to the file of an error, from the root of the project. -/
def PackageResult.place (r : PackageResult) (d : Diagnostic) : String :=
  if r.path = "." then d.path else r.path ++ "/" ++ d.path

namespace Report

variable {color : Bool} {c : Char} {r : PackageResult} {d : Diagnostic}

theorem mem_paint_iff (hc : isLayout c = true) (s : Style) (text : String) :
    c ∈ (s.paint color text).toList ↔ c ∈ text.toList := by
  have hon : ∀ s : Style, isOneLine s.on = true := by rintro ⟨⟩ <;> decide +kernel
  have hoff : ∀ s : Style, isOneLine s.off = true := by rintro ⟨⟩ <;> decide +kernel
  cases color with
  | false => rfl
  | true =>
    rw [Style.paint, if_pos rfl, String.toList_append, String.toList_append, List.mem_append,
      List.mem_append, or_iff_left (not_mem_of_isOneLine (hoff s) hc),
      or_iff_right (not_mem_of_isOneLine (hon s) hc)]

/-- The line of an error has the line breaks and tabs of the path to its file, and no others. -/
theorem mem_errorLine_iff (hc : isLayout c = true) (hd : isOneLine d.message = true) :
    c ∈ (errorLine color r d).toList ↔ c ∈ (r.place d).toList := by
  have hmessage := not_mem_of_isOneLine hd hc
  have hline := not_mem_of_isOneLine (isOneLine_natural d.line) hc
  have hcolumn := not_mem_of_isOneLine (isOneLine_natural d.column) hc
  have hrest : ∀ s ∈ ["✖", " ", "⟦error⟧", " — ", ":"], c ∉ s.toList := by
    have hall : ∀ s ∈ ["✖", " ", "⟦error⟧", " — ", ":"], isOneLine s = true := by decide +kernel
    exact fun s hs => not_mem_of_isOneLine (hall s hs) hc
  simp only [List.forall_mem_cons, List.not_mem_nil, false_implies, implies_true, and_true]
    at hrest
  obtain ⟨hcross, hblank, herror, hdash, hcolon⟩ := hrest
  have hlocation : r.location d =
      r.place d ++ ":" ++ toString d.line ++ ":" ++ toString d.column := rfl
  simp only [errorLine, hlocation, String.toList_append, List.mem_append, mem_paint_iff hc,
    hmessage, hline, hcolumn, hcross, hblank, herror, hdash, hcolon, or_false, false_or]

/-- The errors of a result are lines of what is printed where their lines have no line feed. -/
theorem lines_human (h : ∀ d ∈ r.errors, '\n' ∉ (errorLine color r d).toList)
    (rest : List PackageResult) :
    Text.lines (human color (r :: rest)) = r.errors.map (errorLine color r) ++
      Text.lines (resultLine color r ++ "\n" ++ human color rest) := by
  rw [human_cons, lines_join (List.forall_mem_map.2 h)]

end Report

/-- Messages stay on one line. Whatever a lexer is to read, in any casing, what its listeners
hear and what it throws has no line feed, carriage return or tab in its message, in one call and
up to the end of the text. So it is with the calls of a parser, whatever its tokens are and from
any entry, and with the errors of a check. On its line for people an error has the line breaks
and tabs of the path to its file, and no others. So each error of a check is one line of what is
printed where neither the path of the text nor that of its package has a line feed. -/
theorem messages_stay_on_line (l : Lexer) (p : Parser) (entry : Entry) (path text : String)
    (kind : FileKind) :
    (∃ es, Told l.listeners l.errorCount es l.next.1.listeners l.next.1.errorCount ∧
      ∀ e, l.next.2 = .error e → e ∈ es) ∧
    (∃ es, Told l.listeners l.errorCount es l.readAll.2.listeners l.readAll.2.errorCount) ∧
    (∀ e, TokenStream.ofLexer l = .error e → isOneLine e.message = true) ∧
    (∃ es, Told p.listeners p.errorCount es
        (p.parse entry).1.listeners (p.parse entry).1.errorCount ∧
      ∀ e, (p.parse entry).2 = .error e → e ∈ es) ∧
    (∀ failFast cause, checkSource path text kind failFast = .error cause →
      ∃ e, cause = .aborted path e ∧ isOneLine e.message = true) ∧
    ∃ ds, checkSource path text kind false = .ok ds ∧
      (∀ d ∈ ds, d.path = path ∧ isOneLine d.message = true ∧
        ∀ color r c, isLayout c = true →
          (c ∈ (Report.errorLine color r d).toList ↔ c ∈ (r.place d).toList)) ∧
      ∀ color r rest, r.errors = ds → '\n' ∉ path.toList → '\n' ∉ r.path.toList →
        Text.lines (Report.human color (r :: rest)) = ds.map (Report.errorLine color r) ++
          Text.lines (Report.resultLine color r ++ "\n" ++ Report.human color rest) := by
  obtain ⟨ds, hds, heach⟩ := exists_checkSource_oneLine path text kind
  refine ⟨l.exists_told_next, l.exists_told_callsWithin _,
    fun e => TokenStream.isOneLine_of_drainWithin _, p.exists_told_parse entry,
    fun failFast cause => isOneLine_of_checkSource_error, ds, hds,
    fun d hd => ⟨(heach d hd).1, (heach d hd).2, fun color r c hc =>
      Report.mem_errorLine_iff hc (heach d hd).2⟩, ?_⟩
  rintro color r rest rfl hpath hpackage
  refine Report.lines_human (fun d hd hmem => ?_) rest
  have hplace := (Report.mem_errorLine_iff (by decide) (heach d hd).2).1 hmem
  rw [PackageResult.place, (heach d hd).1] at hplace
  split at hplace
  · exact hpath hplace
  · simp [hpath, hpackage] at hplace

/-- A package with one error. -/
def unclosedClass : PackageResult where
  name := "app"
  path := "force-app"
  package := some "force-app"
  result := ⟨.clean, [".cls"], [⟨10, 1, "missing '\x7d' at '<EOF>'", "A.cls"⟩]⟩

/-- The line feed of an open comment is spelled out, and the error of an open class is a line. -/
theorem messages_stay_on_line_unclosed :
    ((Lexer.ofString .exact "/*\n").addListener .throwing).next.2 =
      .error ⟨1, 1, "token recognition error at: '/*\\n'"⟩ ∧
    isOneLine "token recognition error at: '/*\\n'" = true ∧
    checkSource "A.cls" "class A \x7b" .classFile false = .ok unclosedClass.errors ∧
    Text.lines (Report.human false [unclosedClass]) =
      ["✖ ⟦error⟧ force-app/A.cls:1:10 — missing '\x7d' at '<EOF>'",
        "— [app] force-app — status=ok errors=1", ""] := by
  obtain ⟨⟨es, htold, hthrown⟩, -, -, -, -, ds, hds, -, hlines⟩ :=
    messages_stay_on_line ((Lexer.ofString .exact "/*\n").addListener .throwing)
      (Parser.ofStream .empty) .compilationUnit "A.cls" "class A \x7b" .classFile
  have hthrows : Answer.error? ((Lexer.ofString .exact "/*\n").addListener .throwing).next.2 =
      some ⟨1, 1, "token recognition error at: '/*\\n'"⟩ := by decide +kernel
  have hnext : ((Lexer.ofString .exact "/*\n").addListener .throwing).next.2 =
      .error ⟨1, 1, "token recognition error at: '/*\\n'"⟩ := by
    rcases hanswer : ((Lexer.ofString .exact "/*\n").addListener .throwing).next.2 with e | t
    · rw [hanswer] at hthrows
      rw [Option.some.inj hthrows]
    · rw [hanswer] at hthrows
      cases hthrows
  have hchecked : (checkSource "A.cls" "class A \x7b" .classFile false).toOption =
      some unclosedClass.errors := by decide +kernel
  rw [hds] at hchecked
  obtain rfl := Option.some.inj hchecked
  refine ⟨hnext, htold.oneLine _ (hthrown _ hnext), hds, ?_⟩
  rw [hlines false unclosedClass [] rfl (by decide) (by decide)]
  decide +kernel

end ApexSyntax
