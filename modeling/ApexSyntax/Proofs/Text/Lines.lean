-- Lines of a text, and texts that stay on one line.
import ApexSyntax.Text.OneLine

namespace ApexSyntax

namespace Text

/-! ## Texts of one line -/

/-- No character breaks the line of the text. -/
def isOneLine (text : String) : Bool := text.toList.all (!isLayout ·)

variable {a b : String}

theorem isOneLine_iff : isOneLine a = true ↔ ∀ c ∈ a.toList, isLayout c = false := by
  simp [isOneLine]

theorem not_mem_of_isOneLine (h : isOneLine a = true) {c : Char} (hc : isLayout c = true) :
    c ∉ a.toList := fun hmem => by simp [isOneLine_iff.1 h c hmem] at hc

theorem isOneLine_append (ha : isOneLine a = true) (hb : isOneLine b = true) :
    isOneLine (a ++ b) = true := by
  rw [isOneLine, String.toList_append, List.all_append, Bool.and_eq_true]
  exact ⟨ha, hb⟩

theorem isOneLine_oneLine (text : String) : isOneLine (oneLine text) = true :=
  isOneLine_iff.2 fun _ hc => not_isLayout_of_mem_oneLine hc

/-- Quotes around a text do not break its line. -/
theorem isOneLine_quotes (h : isOneLine a = true) : isOneLine ("'" ++ a ++ "'") = true :=
  isOneLine_append (isOneLine_append (by decide +kernel) h) (by decide +kernel)

/-- A written number is digits. -/
theorem isDigit_of_mem_natural {n : Nat} {c : Char} (h : c ∈ (toString n).toList) :
    c.isDigit = true := by
  rw [Nat.toString_eq_ofList_toDigits, String.toList_ofList] at h
  exact Nat.isDigit_of_mem_toDigits (by decide) (by decide) h

theorem not_mem_natural {c : Char} (hc : c < ' ') (n : Nat) : c ∉ (toString n).toList := by
  intro hmem
  have hdigit := isDigit_of_mem_natural hmem
  simp only [Char.isDigit, ge_iff_le, Bool.and_eq_true, decide_eq_true_eq] at hdigit
  have hzero : '0' ≤ c := hdigit.1
  exact absurd (Std.lt_of_le_of_lt hzero hc) (by decide)

theorem isOneLine_natural (n : Nat) : isOneLine (toString n) = true := by
  refine isOneLine_iff.2 fun c hc => Bool.eq_false_iff.2 fun hlayout => ?_
  have hcontrol : c < ' ' := by
    simp only [isLayout, Bool.or_eq_true, beq_iff_eq] at hlayout
    rcases hlayout with (rfl | rfl) | rfl <;> decide
  exact not_mem_natural hcontrol n hc

/-! ## Lines -/

/-- The lines of a text. What stands behind the last line feed is the last of them. -/
def lines (text : String) : List String := (text.toList.splitOn '\n').map String.ofList

theorem lines_line (h : '\n' ∉ a.toList) (b : String) : lines (a ++ "\n" ++ b) = a :: lines b := by
  have htext : (a ++ "\n" ++ b).toList = a.toList ++ '\n' :: b.toList := by
    simp
  rw [lines, htext, List.splitOn_append_cons_self_of_not_mem h, List.map_cons, String.ofList_toList]
  rfl

/-- Texts without line feeds, each with one behind it, are the lines of what they make. -/
theorem lines_join {ls : List String} (h : ∀ l ∈ ls, '\n' ∉ l.toList) (rest : String) :
    lines (String.join (ls.map (· ++ "\n")) ++ rest) = ls ++ lines rest := by
  induction ls with
  | nil => simp
  | cons l ls ih =>
    obtain ⟨hl, hls⟩ := List.forall_mem_cons.1 h
    rw [List.map_cons, String.join_cons, String.append_assoc, lines_line hl, ih hls,
      List.cons_append]

/-- Nothing stands behind the last line feed. -/
theorem lines_join_end {ls : List String} (h : ∀ l ∈ ls, '\n' ∉ l.toList) :
    lines (String.join (ls.map (· ++ "\n"))) = ls ++ [""] := by
  have hlines := lines_join h ""
  rwa [String.append_empty] at hlines

/-- As many line feeds as lines. -/
theorem count_join {ls : List String} (h : ∀ l ∈ ls, '\n' ∉ l.toList) :
    (String.join (ls.map (· ++ "\n"))).toList.count '\n' = ls.length := by
  induction ls with
  | nil => rfl
  | cons l ls ih =>
    obtain ⟨hl, hls⟩ := List.forall_mem_cons.1 h
    have hline : (l ++ "\n").toList.count '\n' = 1 := by
      rw [String.toList_append, List.count_append, List.count_eq_zero.2 hl]
      rfl
    rw [List.map_cons, String.join_cons, String.toList_append, List.count_append, hline, ih hls,
      List.length_cons, Nat.add_comm]

end Text

end ApexSyntax
