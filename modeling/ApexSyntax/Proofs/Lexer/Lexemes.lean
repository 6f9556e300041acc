-- How far the pieces reach that a lexer takes from a text: never nothing, and
-- never past the end.
import ApexSyntax.Token.Lexeme

namespace ApexSyntax

/-! ## Spans -/

theorem spanLength_le (p : Char → Bool) (cs : List Char) : spanLength p cs ≤ cs.length :=
  (List.takeWhile_sublist p).length_le

theorem spanLength_cons {p : Char → Bool} {c : Char} (h : p c = true) (cs : List Char) :
    spanLength p (c :: cs) = spanLength p cs + 1 := by
  simp [spanLength, h]

theorem take_spanLength (p : Char → Bool) (cs : List Char) :
    cs.take (spanLength p cs) = cs.takeWhile p :=
  (List.prefix_iff_eq_take.1 (List.takeWhile_prefix p)).symm

theorem drop_spanLength (p : Char → Bool) (cs : List Char) :
    cs.drop (spanLength p cs) = cs.dropWhile p := by
  induction cs with
  | nil => rfl
  | cons c cs ih =>
    by_cases hc : p c = true
    · rw [spanLength_cons hc, List.drop_succ_cons, ih, List.dropWhile_cons, if_pos hc]
    · simp [spanLength, hc]

/-! ## Comments and strings -/

theorem commentEnd?_bounds {n m : Nat} {cs : List Char} (h : commentEnd? n cs = some m) :
    n < m ∧ m ≤ n + cs.length := by
  fun_induction commentEnd? n cs with
  | case1 n rest =>
    cases h
    simp only [List.length_cons]
    omega
  | case2 n c rest _ ih =>
    have := ih h
    simp only [List.length_cons]
    omega
  | case3 n => cases h

theorem stringEnd_bounds {n m : Nat} {cs : List Char} (h : stringEnd n cs = .closed m) :
    n < m ∧ m ≤ n + cs.length := by
  fun_induction stringEnd n cs <;> simp_all only [StringEnd.closed.injEq, reduceCtorEq,
    List.length_cons, List.length_nil] <;> first | omega | grind

theorem stringEnd_open {n m : Nat} {cs : List Char} (h : stringEnd n cs = .open m) :
    n ≤ m ∧ m ≤ n + cs.length := by
  fun_induction stringEnd n cs <;> simp_all only [StringEnd.open.injEq, reduceCtorEq,
    List.length_cons, List.length_nil] <;> first | omega | grind

/-! ## Numbers and words -/

theorem zoneLength_le (cs : List Char) : zoneLength cs ≤ cs.length := by
  unfold zoneLength
  split
  · simp
  · rename_i c rest _
    split
    · have := spanLength_le isOffsetPart rest
      simp only [List.length_cons]
      omega
    · omega
  · omega

theorem timeLength_le (cs : List Char) : timeLength cs ≤ cs.length := by
  unfold timeLength
  split
  · rename_i rest
    split
    · have h1 := spanLength_le isClockPart rest
      have h2 := zoneLength_le (rest.drop (spanLength isClockPart rest))
      rw [List.length_drop] at h2
      simp only [List.length_cons]
      omega
    · omega
  · omega

theorem fractionLength_le (cs : List Char) : fractionLength cs ≤ cs.length := by
  unfold fractionLength
  split
  · rename_i rest
    split
    · have := spanLength_le isDigit rest
      simp only [List.length_cons]
      omega
    · omega
  · omega

/-- A point before a digit is a fraction. -/
theorem fractionLength_pos {rest : List Char} (h : startsWithDigit rest = true) :
    0 < fractionLength ('.' :: rest) := by
  have hf : fractionLength ('.' :: rest) = 1 + spanLength isDigit rest := by
    rw [fractionLength, if_pos h]
  omega

theorem startsWithMonthAndDay_length {cs : List Char} (h : startsWithMonthAndDay cs = true) :
    6 ≤ cs.length := by
  unfold startsWithMonthAndDay at h
  split at h
  · simp only [List.length_cons]
    omega
  · cases h

theorem startsWithSuffix_length {letter : Char} {cs : List Char}
    (h : startsWithSuffix letter cs = true) : 1 ≤ cs.length := by
  cases cs with
  | nil => cases h
  | cons c rest => simp

theorem startsWithRunAs_length {cs : List Char} (h : startsWithRunAs cs = true) :
    6 ≤ cs.length := by
  unfold startsWithRunAs at h
  split at h
  · simp only [List.length_cons]
    omega
  · cases h

theorem numberLexeme_le (cs : List Char) : (numberLexeme cs).2 ≤ cs.length := by
  have h1 := spanLength_le isDigit cs
  have h2 := fractionLength_le (cs.drop (spanLength isDigit cs))
  rw [List.length_drop] at h2
  unfold numberLexeme
  dsimp only
  split
  · rename_i h
    have h3 := startsWithMonthAndDay_length h.2
    have h4 := timeLength_le ((cs.drop (spanLength isDigit cs)).drop 6)
    simp only [List.length_drop] at h3 h4
    omega
  · split
    · rename_i h
      have h3 := startsWithSuffix_length h.2
      simp only [List.length_drop] at h3
      dsimp only
      omega
    · split
      · rename_i h
        have h3 := startsWithSuffix_length h
        simp only [List.length_drop] at h3
        dsimp only
        omega
      · split <;> dsimp only <;> omega

theorem fractionLength_of_startsWithMonthAndDay {cs : List Char}
    (h : startsWithMonthAndDay cs = true) : fractionLength cs = 0 := by
  unfold startsWithMonthAndDay at h
  split at h
  · rfl
  · cases h

/-- The digits and the fraction are always read. -/
theorem le_numberLexeme (cs : List Char) :
    spanLength isDigit cs + fractionLength (cs.drop (spanLength isDigit cs)) ≤
      (numberLexeme cs).2 := by
  unfold numberLexeme
  dsimp only
  split
  · rename_i h
    rw [fractionLength_of_startsWithMonthAndDay h.2]
    dsimp only
    omega
  · split
    · dsimp only; omega
    · split
      · dsimp only; omega
      · split <;> dsimp only <;> omega

theorem numberLexeme_pos {c : Char} {rest : List Char}
    (h : isDigit c = true ∨ c = '.' ∧ startsWithDigit rest = true) :
    0 < (numberLexeme (c :: rest)).2 := by
  have hpos : 0 < spanLength isDigit (c :: rest) +
      fractionLength ((c :: rest).drop (spanLength isDigit (c :: rest))) := by
    rcases h with h | ⟨rfl, h⟩
    · rw [spanLength_cons h]
      omega
    · have h0 : spanLength isDigit ('.' :: rest) = 0 := rfl
      rw [h0]
      have := fractionLength_pos h
      simpa using this
  exact Nat.lt_of_lt_of_le hpos (le_numberLexeme _)

theorem wordLexeme_bounds {c : Char} {rest : List Char} (h : Text.isWordStart c = true) :
    0 < (wordLexeme (c :: rest)).2 ∧ (wordLexeme (c :: rest)).2 ≤ rest.length + 1 := by
  have h1 := spanLength_le Text.isWordPart (c :: rest)
  have h2 := spanLength_cons (Text.isWordPart_of_isWordStart h) rest
  rw [List.length_cons] at h1
  unfold wordLexeme
  dsimp only
  split
  · rename_i hr
    have h3 := startsWithRunAs_length hr.2
    rw [List.length_drop, List.length_cons] at h3
    dsimp only
    omega
  · split <;> dsimp only <;> omega

theorem isWord_wordLexeme (cs : List Char) : (wordLexeme cs).1.isWord = true := by
  unfold wordLexeme
  grind [Kind.isWord]

/-! ## Marks -/

theorem markTable_pos : ∀ e ∈ markTable, 0 < e.1.length := by
  decide +kernel

theorem markLexeme?_bounds {cs : List Char} {m : Mark} {n : Nat}
    (h : markLexeme? cs = some (m, n)) : 0 < n ∧ n ≤ cs.length := by
  unfold markLexeme? at h
  rw [Option.map_eq_some_iff] at h
  obtain ⟨e, he, hm⟩ := h
  cases hm
  have hp := List.find?_some he
  exact ⟨markTable_pos e (List.mem_of_find?_eq_some he),
    (List.isPrefixOf_iff_prefix.1 hp).length_le⟩

/-! ## Lexemes -/

namespace Lexeme

/-- What is read is something, and it is there. -/
theorem scan_bounds (c : Char) (rest : List Char) :
    0 < (scan c rest).size ∧ (scan c rest).size ≤ rest.length + 1 := by
  unfold scan
  split
  · have := spanLength_le isBlank rest
    dsimp only [size]
    omega
  · split
    · have := spanLength_le (fun d => !isLineEnd d) rest
      dsimp only [size]
      omega
    · split
      · rename_i h
        have hl : rest.length = rest.tail.length + 1 := by
          cases rest with
          | nil => cases h.2
          | cons d rest => simp
        split
        · rename_i n hn
          have := commentEnd?_bounds hn
          dsimp only [size]
          omega
        · dsimp only [size]
          omega
      · split
        · split
          · rename_i n hn
            have := stringEnd_bounds hn
            dsimp only [size]
            omega
          · dsimp only [size]
            omega
        · split
          · rename_i h
            have := numberLexeme_le (c :: rest)
            have := numberLexeme_pos h
            rw [List.length_cons] at *
            dsimp only [size]
            omega
          · split
            · rename_i h
              exact wordLexeme_bounds h
            · split
              · rename_i m n hn
                have := markLexeme?_bounds hn
                rw [List.length_cons] at this
                exact this
              · dsimp only [size]
                omega

/-- A message shows something, and it is there. -/
theorem shown_bounds {c : Char} {rest : List Char} {shown skipped : Nat}
    (h : scan c rest = unreadable shown skipped) : 0 < shown ∧ shown ≤ rest.length + 1 := by
  unfold scan at h
  repeat' split at h
  all_goals first
    | contradiction
    | (cases h; omega)
    | (rename_i hs; cases h; have := stringEnd_open hs; omega)

/-- The end of the text is no piece of it. -/
theorem kind_scan_ne_eof {c : Char} {rest : List Char} {kind : Kind} {n : Nat}
    (h : scan c rest = token kind n) : kind ≠ .eof := by
  rintro rfl
  unfold scan wordLexeme at h
  grind

end Lexeme

end ApexSyntax
