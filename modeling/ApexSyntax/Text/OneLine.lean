-- Text that is quoted inside a message. A message stays on one line, so line
-- breaks and tabs are written as a backslash and a letter.
namespace ApexSyntax.Text

/-- How one character is written inside a message. -/
def onOneLine : Char → List Char
  | '\n' => ['\\', 'n']
  | '\r' => ['\\', 'r']
  | '\t' => ['\\', 't']
  | c => [c]

/-- The text with its line breaks and tabs spelled out. -/
def oneLine (text : String) : String := String.ofList (text.toList.flatMap onOneLine)

/-- The characters that would break a message's line. -/
def isLayout (c : Char) : Bool := c == '\n' || c == '\r' || c == '\t'

theorem not_isLayout_of_mem_onOneLine {c d : Char} (h : d ∈ onOneLine c) : isLayout d = false := by
  unfold onOneLine at h
  split at h <;> simp_all [isLayout]
  · rcases h with rfl | rfl <;> decide
  · rcases h with rfl | rfl <;> decide
  · rcases h with rfl | rfl <;> decide

/-- Nothing in the written text breaks the line. -/
theorem not_isLayout_of_mem_oneLine {text : String} {d : Char} (h : d ∈ (oneLine text).toList) :
    isLayout d = false := by
  simp only [oneLine, String.toList_ofList, List.mem_flatMap] at h
  obtain ⟨c, _, hc⟩ := h
  exact not_isLayout_of_mem_onOneLine hc

end ApexSyntax.Text
