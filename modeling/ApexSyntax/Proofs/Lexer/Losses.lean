-- What a lexer cannot read: a character that no token starts with, the quote of
-- a string that its line ends too early, and a comment without an end.
import ApexSyntax.Proofs.Lexer.Lexemes

namespace ApexSyntax

/-! ## Characters -/

/-- No token starts with the character. -/
structure StartsNothing (c : Char) : Prop where
  blank : isBlank c = false
  quote : isQuote c = false
  digit : isDigit c = false
  word : Text.isWordStart c = false
  mark (m : Mark) : m.spelling.toList.head? ≠ some c

/-- The first character of a mark is a mark by itself. -/
theorem exists_mark_of_head : ∀ m ∈ Mark.all,
    ∃ e ∈ markTable, some e.1 = m.spelling.toList.head?.map ([·]) := by
  decide +kernel

theorem head_ne_of_markLexeme? {c : Char} {rest : List Char} (h : markLexeme? (c :: rest) = none)
    (m : Mark) : m.spelling.toList.head? ≠ some c := by
  intro hm
  obtain ⟨e, he, heq⟩ := exists_mark_of_head m m.mem_all
  rw [hm, Option.map_some, Option.some.injEq] at heq
  rw [markLexeme?, Option.map_eq_none_iff, List.find?_eq_none] at h
  apply h e he
  rw [heq]
  simp

/-! ## Strings -/

/-- A string goes on with these characters up to its closing quote. A backslash
takes the next character along, and no line ends before the quote. -/
inductive ClosedString : List Char → Prop
  | quote {c : Char} {rest : List Char} : isQuote c = true → ClosedString (c :: rest)
  | escape {c : Char} {rest : List Char} :
      isLineEnd c = false → ClosedString rest → ClosedString ('\\' :: c :: rest)
  | plain {c : Char} {rest : List Char} :
      isQuote c = false → isLineEnd c = false → c ≠ '\\' → ClosedString rest →
      ClosedString (c :: rest)

theorem closed_of_closedString {cs : List Char} (h : ClosedString cs) (n : Nat) :
    ∃ m, stringEnd n cs = .closed m := by
  induction h generalizing n with
  | @quote c rest hq =>
    cases rest with
    | nil => exact ⟨n + 1, by rw [stringEnd, if_pos hq]⟩
    | cons d rest => exact ⟨n + 1, by rw [stringEnd, if_pos hq]⟩
  | @escape c rest hl _ ih =>
    obtain ⟨m, hm⟩ := ih (n + 2)
    refine ⟨m, ?_⟩
    rw [stringEnd, if_neg (by decide), if_neg (by decide), if_pos rfl, if_neg (by simp [hl]), hm]
  | @plain c rest hq hl hb hrest ih =>
    obtain ⟨m, hm⟩ := ih (n + 1)
    -- A last character closes nothing, so there is one more to look at.
    obtain ⟨d, ds, rfl⟩ : ∃ d ds, rest = d :: ds := by cases hrest <;> exact ⟨_, _, rfl⟩
    refine ⟨m, ?_⟩
    rw [stringEnd, if_neg (by simp [hq]), if_neg (by simp [hl]), if_neg hb, hm]

theorem not_closedString {n m : Nat} {cs : List Char} (h : stringEnd n cs = .open m) :
    ¬ ClosedString cs := by
  intro hc
  obtain ⟨k, hk⟩ := closed_of_closedString hc n
  rw [hk] at h
  cases h

/-! ## Comments -/

theorem not_infix_of_commentEnd? {n : Nat} {cs : List Char} (h : commentEnd? n cs = none) :
    ¬ ['*', '/'] <:+: cs := by
  fun_induction commentEnd? n cs with
  | case1 => cases h
  | case2 n c rest hne ih =>
    rw [List.infix_cons_iff]
    rintro (⟨t, ht⟩ | hi)
    · cases ht
      exact hne t rfl rfl
    · exact ih h hi
  | case3 => simp

/-! ## Losses -/

/-- The first character is lost: no token starts with it, or it opens a string
that is not closed. -/
def LosesCharacter : List Char → Prop
  | c :: rest => StartsNothing c ∨ isQuote c = true ∧ ¬ ClosedString rest
  | [] => False

/-- Everything is lost: a comment opens that is not closed. -/
def LosesRest (cs : List Char) : Prop :=
  ∃ rest, cs = '/' :: '*' :: rest ∧ ¬ ['*', '/'] <:+: rest

namespace Lexeme

/-- What is no token loses one character, or opens a comment that is not closed. -/
theorem loses_of_unreadable {c : Char} {rest : List Char} {shown skipped : Nat}
    (h : scan c rest = .unreadable shown skipped) :
    (skipped = 1 ∧ LosesCharacter (c :: rest)) ∨
    (skipped = rest.length + 1 ∧ LosesRest (c :: rest)) := by
  unfold scan at h
  split at h
  · cases h
  · split at h
    · cases h
    · split at h
      · rename_i hc
        split at h
        · cases h
        · rename_i hn
          cases h
          obtain ⟨d, rest, rfl⟩ : ∃ d ds, rest = d :: ds := by
            cases rest with
            | nil => cases hc.2
            | cons d ds => exact ⟨d, ds, rfl⟩
          obtain ⟨rfl, hd⟩ := hc
          cases hd
          exact .inr ⟨Nat.add_comm _ _, rest, rfl, not_infix_of_commentEnd? hn⟩
      · split at h
        · rename_i hq
          split at h
          · cases h
          · rename_i hs
            cases h
            exact .inl ⟨rfl, .inr ⟨hq, not_closedString hs⟩⟩
        · split at h
          · cases h
          · split at h
            · cases h
            · split at h
              · cases h
              · rename_i hb _ _ hq hd hw _ hm
                cases h
                refine .inl ⟨rfl, .inl ?_⟩
                exact {
                  blank := Bool.eq_false_iff.2 hb
                  quote := Bool.eq_false_iff.2 hq
                  digit := Bool.eq_false_iff.2 fun hd' => hd (.inl hd')
                  word := Bool.eq_false_iff.2 hw
                  mark := head_ne_of_markLexeme? hm }

end Lexeme

end ApexSyntax
