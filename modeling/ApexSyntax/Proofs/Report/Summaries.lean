-- Printed results and their summary. What is printed for people has as many lines as the summary
-- counts errors and packages. The worst status read back from these lines is the one that the
-- summary tells, and its code is the one that a program ends with.
import ApexSyntax.Proofs.Json.DiagnosticLines
import ApexSyntax.Proofs.Report.Colours
import Mathlib.Data.List.DropRight

namespace ApexSyntax

/-! ## Reading statuses -/

namespace Status

/-- How the line of a result ends, in front of the number of errors. -/
def ending (s : Status) : List Char := (" — status=" ++ s.label ++ " errors=").toList

/-- The status that the line of a result ends with. Whatever name the line has in front of it, the
last status of the line counts. -/
def ofLine? (line : String) : Option Status :=
  let body := line.toList.rdropWhile Char.isDigit
  if line.toList.head? = some '—' then
    [clean, failed, missing].find? fun s => s.ending.isSuffixOf body
  else none

theorem eq_of_ending_suffix {s t : Status} (h : s.ending <:+ t.ending) : s = t := by
  revert h
  cases s <;> cases t <;> decide +kernel

theorem ending_suffix_append_iff {s t : Status} {front : List Char} :
    s.ending <:+ front ++ t.ending ↔ s = t := by
  refine ⟨fun h => ?_, by rintro rfl; exact List.suffix_append _ _⟩
  rcases List.suffix_or_suffix_of_suffix h (List.suffix_append front t.ending) with h | h
  · exact eq_of_ending_suffix h
  · exact (eq_of_ending_suffix h).symm

/-- An ending is no digit. -/
theorem rdropWhile_append_ending (s : Status) (front : List Char) (n : Nat) :
    (front ++ s.ending ++ (toString n).toList).rdropWhile Char.isDigit = front ++ s.ending := by
  have hlast : s.ending.getLast? = some '=' := by cases s <;> decide +kernel
  obtain ⟨body, hbody⟩ := List.getLast?_eq_some_iff.1 hlast
  have hdigits : ∀ c ∈ (toString n).toList.reverse, c.isDigit = true :=
    fun c hc => Text.isDigit_of_mem_natural (List.mem_reverse.1 hc)
  rw [List.rdropWhile, List.reverse_append, List.dropWhile_append_of_pos hdigits, hbody,
    ← List.append_assoc, List.reverse_append]
  simp

theorem find?_ending (t : Status) (front : List Char) :
    [clean, failed, missing].find? (fun s => s.ending.isSuffixOf (front ++ t.ending)) = some t := by
  rcases hfind : [clean, failed, missing].find? fun s => s.ending.isSuffixOf (front ++ t.ending)
    with _ | s
  · have hnone := List.find?_eq_none.1 hfind t (by cases t <;> decide)
    rw [List.isSuffixOf_iff_suffix, ending_suffix_append_iff] at hnone
    exact absurd rfl hnone
  · have hsome := List.find?_some hfind
    rw [List.isSuffixOf_iff_suffix, ending_suffix_append_iff] at hsome
    rw [hfind, hsome]

end Status

namespace Report

variable {r : PackageResult} {results : List PackageResult}

theorem ofLine?_resultLine (r : PackageResult) :
    Status.ofLine? (resultLine false r) = some r.status := by
  have htext : (resultLine false r).toList = ("— " ++ scope r).toList ++ r.status.ending ++
      (toString r.errors.length).toList := by
    simp only [resultLine, Style.paint, Status.ending, Bool.false_eq_true, if_false,
      String.toList_append, List.append_assoc]
  have hhead : (resultLine false r).toList.head? = some '—' := by
    rw [htext]
    simp
  rw [Status.ofLine?, if_pos hhead, htext, Status.rdropWhile_append_ending, Status.find?_ending]

theorem ofLine?_errorLine (r : PackageResult) (d : Diagnostic) :
    Status.ofLine? (errorLine false r d) = none := by
  have hhead : (errorLine false r d).toList.head? = some '✖' := by
    simp [errorLine, Style.paint]
  rw [Status.ofLine?, hhead]
  exact if_neg (by decide)

/-- The statuses that the lines of a text end with. -/
def printedStatuses (text : String) : List Status := (Text.lines text).filterMap Status.ofLine?

/-! ## Lines -/

theorem newline_not_mem_line (h : r.Lacks '\n') {line : String} (hline : line ∈ lines false r) :
    '\n' ∉ line.toList := by
  rw [lines, List.mem_append, List.mem_map, List.mem_singleton] at hline
  rcases hline with ⟨d, hd, rfl⟩ | rfl
  · exact not_mem_errorLine (by decide) h hd
  · exact not_mem_resultLine (by decide) h

theorem newline_not_mem_lines (h : ∀ r ∈ results, r.Lacks '\n') :
    ∀ line ∈ results.flatMap (lines false), '\n' ∉ line.toList := by
  intro line hline
  obtain ⟨r, hr, hmem⟩ := List.mem_flatMap.1 hline
  exact newline_not_mem_line (h r hr) hmem

theorem length_lines (color : Bool) (results : List PackageResult) :
    (results.flatMap (lines color)).length =
      PackageResult.errorTotal results + results.length := by
  induction results with
  | nil => rfl
  | cons r rest ih =>
    have htotal : PackageResult.errorTotal (r :: rest) =
        r.errors.length + PackageResult.errorTotal rest := rfl
    have hlines : (lines color r).length = r.errors.length + 1 := by simp [lines]
    rw [List.flatMap_cons, List.length_append, ih, hlines, htotal, List.length_cons]
    omega

theorem filterMap_lines (results : List PackageResult) :
    (results.flatMap (lines false)).filterMap Status.ofLine? =
      results.map PackageResult.status := by
  induction results with
  | nil => rfl
  | cons r rest ih =>
    have herrors : (r.errors.map (errorLine false r)).filterMap Status.ofLine? = [] := by
      rw [List.filterMap_map, List.filterMap_eq_nil_iff]
      exact fun d _ => ofLine?_errorLine r d
    rw [List.flatMap_cons, List.filterMap_append, ih, lines, List.filterMap_append, herrors,
      List.filterMap_cons_some (ofLine?_resultLine r)]
    rfl

theorem lines_human_all (h : ∀ r ∈ results, r.Lacks '\n') :
    Text.lines (human false results) = results.flatMap (lines false) ++ [""] :=
  Text.lines_join_end (newline_not_mem_lines h)

theorem printedStatuses_human (h : ∀ r ∈ results, r.Lacks '\n') :
    printedStatuses (human false results) = results.map PackageResult.status := by
  rw [printedStatuses, lines_human_all h, List.filterMap_append, filterMap_lines]
  simp [Status.ofLine?]

end Report

/-! ## Summaries -/

/-- The member of an object. -/
def Json.member? (key : String) : Json → Option Json
  | .object members => members.lookup key
  | _ => none

def Json.toNat? : Json → Option Nat
  | .number written => natural? written
  | _ => none

namespace PackageResult

/-- A number that the summary of some results tells. -/
def summary? (key : String) (results : List PackageResult) : Option Nat :=
  (((allToJson results).member? "summary").bind (Json.member? key)).bind Json.toNat?

variable (results : List PackageResult)

theorem summary?_status : summary? "status" results = some (exitCode results) :=
  Json.natural?_toString _

theorem summary?_errors : summary? "errors" results = some (errorTotal results) :=
  Json.natural?_toString _

theorem summary?_packages : summary? "packages" results = some results.length :=
  Json.natural?_toString _

end PackageResult

namespace Report

open PackageResult

/-- What is printed for people says the same with colours and without them, and agrees with the
summary. Where the printed texts of the results have no escape character, the coloured output
without its control sequences is the plain one. Where they have no line feed, the plain output is
as many lines as the summary tells errors and packages, each with its line feed and nothing behind
the last. Its lines tell the statuses of the results in their order. The worst of these has the
code that the summary tells and that a program ends with. -/
theorem human_output_agrees (output : String) (results : List PackageResult)
    (hhuman : output ≠ "json") :
    ((∀ r ∈ results, r.Lacks '\x1b') →
      Text.withoutSequences (print output true results) = print output false results) ∧
    ((∀ r ∈ results, r.Lacks '\n') → ∃ status errors packages,
      summary? "status" results = some status ∧ summary? "errors" results = some errors ∧
      summary? "packages" results = some packages ∧
      (print output false results).toList.count '\n' = errors + packages ∧
      (∃ ls, Text.lines (print output false results) = ls ++ [""] ∧
        ls.length = errors + packages) ∧
      exitCode results = status ∧
      printedStatuses (print output false results) = results.map PackageResult.status ∧
      (Status.worst (printedStatuses (print output false results))).code = status) := by
  have hprint : ∀ color, print output color results = human color results :=
    fun color => if_neg hhuman
  rw [hprint, hprint]
  refine ⟨fun hescape => (shows_human hescape).withoutSequences_eq, fun hfeed => ?_⟩
  have hstatuses := printedStatuses_human hfeed
  refine ⟨_, _, _, summary?_status results, summary?_errors results, summary?_packages results,
    ?_, ⟨_, lines_human_all hfeed, length_lines false results⟩, rfl, hstatuses, ?_⟩
  · rw [human, Text.count_join (newline_not_mem_lines hfeed), length_lines]
  · rw [hstatuses]
    rfl

/-- A package with an error, and one that is missing and named like the end of a line. -/
def mixedResults : List PackageResult :=
  [{ name := "app"
     path := "force-app"
     package := some "force-app"
     result := ⟨.clean, [".cls"], [⟨7, 1, "missing ';' at '<EOF>'", "A.cls"⟩]⟩ },
   { name := "app"
     path := "gone"
     package := some "gone — status=ok errors=0"
     result := ⟨.missing, [], []⟩ }]

/-- The line of the missing package is read from its end. -/
theorem human_output_agrees_mixed :
    "human" ≠ "json" ∧ (∀ r ∈ mixedResults, r.Lacks '\x1b' ∧ r.Lacks '\n') ∧
    print "human" true mixedResults ≠ print "human" false mixedResults ∧
    Text.withoutSequences (print "human" true mixedResults) = print "human" false mixedResults ∧
    Text.lines (print "human" false mixedResults) =
      ["✖ ⟦error⟧ force-app/A.cls:1:7 — missing ';' at '<EOF>'",
        "— [app] force-app — status=ok errors=1",
        "— [app] gone — status=ok errors=0 — status=missing errors=0", ""] ∧
    (print "human" false mixedResults).toList.count '\n' = 1 + 2 ∧
    summary? "errors" mixedResults = some 1 ∧ summary? "packages" mixedResults = some 2 ∧
    printedStatuses (print "human" false mixedResults) = [.clean, .missing] ∧
    summary? "status" mixedResults = some 2 ∧ exitCode mixedResults = 2 := by
  have hescape : ∀ r ∈ mixedResults, r.Lacks '\x1b' := by decide +kernel
  have hfeed : ∀ r ∈ mixedResults, r.Lacks '\n' := by decide +kernel
  obtain ⟨hcolours, hsummary⟩ := human_output_agrees "human" mixedResults (by decide)
  obtain ⟨status, errors, packages, hstatus, herrors, hpackages, hcount, -, hexit, hprinted, -⟩ :=
    hsummary hfeed
  obtain rfl : 2 = status := hexit
  obtain rfl : 1 = errors := Option.some.inj ((summary?_errors mixedResults).symm.trans herrors)
  obtain rfl : 2 = packages :=
    Option.some.inj ((summary?_packages mixedResults).symm.trans hpackages)
  exact ⟨by decide, fun r hr => ⟨hescape r hr, hfeed r hr⟩, by decide +kernel, hcolours hescape,
    by decide +kernel, hcount, herrors, hpackages, hprinted, hstatus, rfl⟩

end Report

end ApexSyntax
