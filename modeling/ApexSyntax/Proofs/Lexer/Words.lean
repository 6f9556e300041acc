-- Only names and keywords have a word. Marks, literals and what is hidden have none, so
-- a token that is known by its word is no mark.
import ApexSyntax.Proofs.Lexer.Reading

namespace ApexSyntax

theorem Lexes.word_eq {l l' : Lexer} {ts : List Token} (h : Lexes l ts l') :
    ∀ t ∈ ts, t.kind.isWord = false → t.word = "" := by
  induction h with
  | done _ => simp
  | token _ _ _ ih =>
    intro t ht hk
    rcases List.mem_cons.1 ht with rfl | ht
    · exact if_neg (Bool.eq_false_iff.1 hk)
    · exact ih t ht hk
  | unreadable _ _ _ ih => exact ih

theorem exists_of_mem_numbered {k : Nat} {ts : List Token} {t : Token} (h : t ∈ numbered k ts) :
    ∃ u ∈ ts, t.kind = u.kind ∧ t.word = u.word := by
  induction ts generalizing k with
  | nil => cases h
  | cons u ts ih =>
    rcases List.mem_cons.1 h with rfl | h
    · exact ⟨u, List.mem_cons_self, rfl, rfl⟩
    · obtain ⟨v, hv, hkind⟩ := ih h
      exact ⟨v, List.mem_cons_of_mem u hv, hkind⟩

namespace TokenStream

/-- Only names and keywords have a word. -/
def Spelled (s : TokenStream) : Prop := ∀ t ∈ s.tokens, t.kind.isWord = false → t.word = ""

instance (s : TokenStream) : Decidable s.Spelled :=
  inferInstanceAs (Decidable (∀ t ∈ s.tokens, t.kind.isWord = false → t.word = ""))

theorem spelled_ofString {casing : Text.Casing} {text : String} {s : TokenStream}
    (h : ofString casing text = .ok s) : s.Spelled := by
  obtain ⟨ts, l', s', hlex, hs, htokens, _⟩ :=
    ofLexer_lexes (l := Lexer.ofString casing text) rfl
  obtain rfl : s' = s := Except.ok.inj (hs.symm.trans h)
  intro t ht hk
  rw [htokens] at ht
  obtain ⟨u, hu, hkind, hword⟩ := exists_of_mem_numbered (List.mem_toArray.1 ht)
  rw [hword]
  exact hlex.word_eq u hu (hkind ▸ hk)

/-- The end of the text has no word either. -/
theorem Spelled.word_nth {s : TokenStream} (h : s.Spelled) {i : Nat}
    (hk : (s.nth i).kind.isWord = false) : (s.nth i).word = "" := by
  by_cases hi : i < s.visible.size
  · exact h _ (nth_mem hi) hk
  · rw [nth_of_le (Nat.not_lt.1 hi), word_eof]

end TokenStream

end ApexSyntax
