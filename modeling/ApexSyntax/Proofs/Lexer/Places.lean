-- The places of tokens: lines and columns grow from each token of a text to the
-- next, and up to the end.
import ApexSyntax.Proofs.Lexer.Reading

namespace ApexSyntax

/-! ## The order of places -/

namespace Place

/-- Places are ordered as they are read: by lines, then by columns. -/
instance : LT Place where
  lt p q := p.line < q.line ∨ p.line = q.line ∧ p.column < q.column

instance : LE Place where
  le p q := p.line < q.line ∨ p.line = q.line ∧ p.column ≤ q.column

theorem lt_iff {p q : Place} :
    p < q ↔ p.line < q.line ∨ p.line = q.line ∧ p.column < q.column := Iff.rfl

theorem le_iff {p q : Place} :
    p ≤ q ↔ p.line < q.line ∨ p.line = q.line ∧ p.column ≤ q.column := Iff.rfl

theorem le_refl (p : Place) : p ≤ p := .inr ⟨rfl, Nat.le_refl _⟩

theorem le_of_lt {p q : Place} (h : p < q) : p ≤ q := by
  rw [lt_iff] at h
  rw [le_iff]
  omega

theorem lt_of_lt_of_le {p q r : Place} (h : p < q) (h' : q ≤ r) : p < r := by
  rw [le_iff] at h'
  rw [lt_iff] at *
  omega

theorem lt_after (p : Place) (c : Char) : p < p.after c := by
  rw [lt_iff, after]
  split
  · exact .inl (Nat.lt_succ_self _)
  · exact .inr ⟨rfl, Nat.lt_succ_self _⟩

theorem le_afterAll (p : Place) (cs : List Char) : p ≤ p.afterAll cs := by
  induction cs generalizing p with
  | nil => exact le_refl p
  | cons c cs ih => exact le_of_lt (lt_of_lt_of_le (p.lt_after c) (ih (p.after c)))

theorem lt_afterAll (p : Place) {cs : List Char} (h : cs ≠ []) : p < p.afterAll cs := by
  cases cs with
  | nil => exact absurd rfl h
  | cons c cs => exact lt_of_lt_of_le (p.lt_after c) (le_afterAll (p.after c) cs)

end Place

/-- Where a token starts. -/
def Token.place (t : Token) : Place := ⟨t.line, t.column⟩

/-- Where an error was found. -/
def SyntaxError.place (e : SyntaxError) : Place := ⟨e.line, e.column⟩

/-! ## Tokens from a text -/

theorem Lexer.place_lt_skip {l : Lexer} {c : Char} {rest : List Char} {n : Nat}
    (h : l.reader.rest = c :: rest) (hn : 0 < n) : l.place < (l.skip n).place := by
  apply Place.lt_afterAll
  obtain ⟨n, rfl⟩ := Nat.exists_eq_succ_of_ne_zero (Nat.ne_of_gt hn)
  rw [h, List.take_succ_cons]
  exact List.cons_ne_nil _ _

/-- Each token of a text starts behind the start of the one before, and the end
stands behind them all. -/
theorem Lexes.places_sorted {l l' : Lexer} {ts : List Token} (h : Lexes l ts l') :
    (ts.map Token.place ++ [l'.place]).Pairwise (· < ·) ∧
      ∀ p ∈ ts.map Token.place ++ [l'.place], l.place ≤ p := by
  induction h with
  | done _ => simp [Place.le_refl]
  | @token l l' ts c rest kind n hr hs _ ih =>
    obtain ⟨hsorted, hle⟩ := ih
    have hb := Lexeme.scan_bounds c rest
    rw [hs] at hb
    have hlt := Lexer.place_lt_skip hr hb.1
    rw [List.map_cons, List.cons_append]
    constructor
    · refine .cons ?_ hsorted
      intro p hp
      exact Place.lt_of_lt_of_le hlt (hle p hp)
    · intro p hp
      rcases List.mem_cons.1 hp with rfl | hp
      · exact Place.le_refl _
      · exact Place.le_of_lt (Place.lt_of_lt_of_le hlt (hle p hp))
  | @unreadable l l' ts c rest shown skipped hr hs _ ih =>
    obtain ⟨hsorted, hle⟩ := ih
    have hlt := Lexer.place_lt_skip hr (Lexeme.skipped_pos hs)
    refine ⟨hsorted, ?_⟩
    intro p hp
    exact Place.le_of_lt (Place.lt_of_lt_of_le hlt (hle p hp))

namespace TokenStream

/-- The tokens that a parser sees, the end last. -/
def seen (s : TokenStream) : List Token := s.visible.toList ++ [s.eof]

variable {s : TokenStream}

theorem length_seen (s : TokenStream) : s.seen.length = s.visibleCount := by
  simp [seen, visibleCount]

theorem getElem_seen {i : Nat} (h : i < s.seen.length) : s.seen[i] = s.nth i := by
  simp only [seen, List.getElem_append]
  split
  · rename_i hi
    rw [Array.length_toList] at hi
    simp [nth, Array.getD, hi]
  · rename_i hi
    rw [Array.length_toList] at hi
    simp [nth_of_le (Nat.le_of_not_lt hi)]

/-- The tokens that a parser sees stand in the order of their places. -/
theorem places_sorted {casing : Text.Casing} {text : String} (h : ofString casing text = .ok s) :
    s.seen.Pairwise fun t u => t.place < u.place := by
  have hl : Listener.stopsAt (Lexer.ofString casing text).listeners = false := rfl
  obtain ⟨ts, l', s', hlex, hs, htokens, heof⟩ := ofLexer_lexes hl
  obtain rfl : s' = s := Except.ok.inj (hs.symm.trans h)
  have hplace : s'.eof.place = l'.place := by rw [heof]; rfl
  have hall : (s'.tokens.toList ++ [s'.eof]).Pairwise fun t u => t.place < u.place := by
    rw [← List.pairwise_map (R := (· < ·)), List.map_append, htokens, map_numbered (fun _ _ => rfl),
      List.map_singleton, hplace]
    exact hlex.places_sorted.1
  refine hall.sublist (List.Sublist.append_right ?_ _)
  rw [s'.visible_eq, Array.toList_filter]
  exact List.filter_sublist

end TokenStream

end ApexSyntax
