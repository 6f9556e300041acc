-- Reading a whole text, as one relation: which tokens a lexer takes from the
-- rest of its text, and where that leaves it. A law of one piece, kept from
-- each piece to the next, is a law of the whole text.
import ApexSyntax.Proofs.Lexer.Calls
import ApexSyntax.Proofs.Lexer.Lexemes

namespace ApexSyntax

/-! ## Texts as they are read -/

/-- A lexer takes tokens from the rest of its text up to the end. What is no
token is skipped and reported. -/
inductive Lexes : Lexer → List Token → Lexer → Prop
  | done {l : Lexer} : l.reader.rest = [] → Lexes l [] { l with done := true }
  | token {l l' : Lexer} {ts : List Token} {c : Char} {rest : List Char} {kind : Kind} {n : Nat} :
      l.reader.rest = c :: rest → Lexeme.scan c rest = .token kind n →
      Lexes (l.skip n) ts l' → Lexes l (l.tokenOf kind n :: ts) l'
  | unreadable {l l' : Lexer} {ts : List Token} {c : Char} {rest : List Char}
      {shown skipped : Nat} :
      l.reader.rest = c :: rest → Lexeme.scan c rest = .unreadable shown skipped →
      Lexes ((l.skip skipped).report (l.unreadableError shown)) ts l' → Lexes l ts l'

namespace Lexer

/-- Calls the lexer up to the end of its text, at most `fuel` times. -/
def callsWithin : Nat → Lexer → List Token × Lexer
  | 0, l => ([], l)
  | fuel + 1, l =>
    match l.next with
    | (l', .error _) => ([], l')
    | (l', .ok t) =>
      if t.kind = .eof then ([t], l')
      else
        let (ts, l'') := callsWithin fuel l'
        (t :: ts, l'')

/-- Calls the lexer up to the end of its text: all tokens, the end last, and the
lexer behind them. -/
def readAll (l : Lexer) : List Token × Lexer := l.callsWithin (l.reader.left + 1)

theorem left_skip (l : Lexer) (n : Nat) : (l.skip n).reader.left = l.reader.left - n :=
  l.reader.left_skip n

theorem left_eq_of_rest {l : Lexer} {c : Char} {rest : List Char} (h : l.reader.rest = c :: rest) :
    l.reader.left = rest.length + 1 := by
  rw [← Text.Reader.length_rest, h, List.length_cons]

/-- A call takes one token, or comes to the end. -/
theorem nextWithin_lexes {n : Nat} {l : Lexer} (hn : l.reader.left ≤ n)
    (h : Listener.stopsAt l.listeners = false) :
    ∃ l' t, l.nextWithin n = (l', .ok t) ∧ Listener.stopsAt l'.listeners = false ∧
      ((t = l'.eofToken ∧ Lexes l [] l') ∨
        (t.kind ≠ .eof ∧ l'.reader.left < l.reader.left ∧
          ∀ ts l'', Lexes l' ts l'' → Lexes l (t :: ts) l'')) := by
  induction n generalizing l with
  | zero =>
    have hrest : l.reader.rest = [] := by
      rw [← List.length_eq_zero_iff, Text.Reader.length_rest]
      omega
    exact ⟨_, _, rfl, h, .inl ⟨rfl, .done hrest⟩⟩
  | succ n ih =>
    unfold nextWithin
    split
    · exact ⟨_, _, rfl, h, .inl ⟨rfl, .done ‹_›⟩⟩
    · rename_i c rest hrest
      have hleft := left_eq_of_rest hrest
      have hb := Lexeme.scan_bounds c rest
      split
      · rename_i kind k hs
        rw [hs] at hb
        refine ⟨_, _, rfl, h, .inr ⟨Lexeme.kind_scan_ne_eof hs, ?_, ?_⟩⟩
        · rw [left_skip]
          simp only [Lexeme.size] at hb
          omega
        · exact fun ts l'' ht => .token hrest hs ht
      · rename_i shown skipped hs
        rw [hs] at hb
        simp only [Lexeme.size] at hb
        rw [if_neg (by simp [h])]
        have hskip : ((l.skip skipped).report (l.unreadableError shown)).reader.left =
            l.reader.left - skipped := left_skip l skipped
        have hle : ((l.skip skipped).report (l.unreadableError shown)).reader.left ≤ n := by
          omega
        obtain ⟨l', t, he, hl', ht⟩ := ih hle (by rw [stopsAt_report, listeners_skip, h])
        refine ⟨l', t, he, hl', ?_⟩
        rcases ht with ⟨rfl, hd⟩ | ⟨hk, hlt, hts⟩
        · exact .inl ⟨rfl, .unreadable hrest hs hd⟩
        · exact .inr ⟨hk, by omega, fun ts l'' h'' => .unreadable hrest hs (hts ts l'' h'')⟩

theorem callsWithin_lexes {n : Nat} {l : Lexer} (hn : l.reader.left < n)
    (h : Listener.stopsAt l.listeners = false) :
    ∃ ts l', l.callsWithin n = (ts ++ [l'.eofToken], l') ∧ Lexes l ts l' := by
  induction n generalizing l with
  | zero => omega
  | succ n ih =>
    obtain ⟨l', t, hnext, hl', ht⟩ := nextWithin_lexes (Nat.le_refl l.reader.left) h
    have hnext : l.next = (l', .ok t) := hnext
    unfold callsWithin
    simp only [hnext]
    rcases ht with ⟨rfl, hd⟩ | ⟨hk, hlt, hts⟩
    · exact ⟨[], l', by rw [if_pos (by rfl)]; rfl, hd⟩
    · obtain ⟨ts, l'', hc, hlex⟩ := ih (by omega) hl'
      refine ⟨t :: ts, l'', ?_, hts ts l'' hlex⟩
      rw [if_neg hk, hc]
      rfl

/-- Calling a lexer up to the end gives the tokens of its text and the end. -/
theorem readAll_lexes {l : Lexer} (h : Listener.stopsAt l.listeners = false) :
    ∃ ts l', l.readAll = (ts ++ [l'.eofToken], l') ∧ Lexes l ts l' :=
  callsWithin_lexes (Nat.lt_succ_self _) h

end Lexer

/-- The tokens of a text are determined, and so is the lexer behind them. -/
theorem Lexes.unique {l l₁ l₂ : Lexer} {ts us : List Token} (h : Lexes l ts l₁)
    (h' : Lexes l us l₂) : ts = us ∧ l₁ = l₂ := by
  induction h generalizing us l₂ with
  | done hr =>
    cases h' with
    | done _ => exact ⟨rfl, rfl⟩
    | token hr' _ _ => rw [hr] at hr'; cases hr'
    | unreadable hr' _ _ => rw [hr] at hr'; cases hr'
  | token hr hs _ ih =>
    cases h' with
    | done hr' => rw [hr] at hr'; cases hr'
    | token hr' hs' h' =>
      rw [hr] at hr'
      cases hr'
      rw [hs] at hs'
      cases hs'
      obtain ⟨rfl, rfl⟩ := ih h'
      exact ⟨rfl, rfl⟩
    | unreadable hr' hs' _ =>
      rw [hr] at hr'
      cases hr'
      rw [hs] at hs'
      cases hs'
  | unreadable hr hs _ ih =>
    cases h' with
    | done hr' => rw [hr] at hr'; cases hr'
    | token hr' hs' _ =>
      rw [hr] at hr'
      cases hr'
      rw [hs] at hs'
      cases hs'
    | unreadable hr' hs' h' =>
      rw [hr] at hr'
      cases hr'
      rw [hs] at hs'
      cases hs'
      exact ih h'

/-- No token before the end is an end. -/
theorem Lexes.kind_ne_eof {l l' : Lexer} {ts : List Token} (h : Lexes l ts l') :
    ∀ t ∈ ts, t.kind ≠ .eof := by
  induction h with
  | done _ => simp
  | token _ hs _ ih =>
    intro t ht
    rcases List.mem_cons.1 ht with rfl | ht
    · exact Lexeme.kind_scan_ne_eof hs
    · exact ih t ht
  | unreadable _ _ _ ih => exact ih

/-! ## Streams -/

/-- Tokens with their numbers, counted from `k`. -/
def numbered (k : Nat) : List Token → List Token
  | [] => []
  | t :: ts => { t with index := k } :: numbered (k + 1) ts

/-- What does not look at the numbers is the same for the numbered tokens. -/
theorem map_numbered {α : Type} {f : Token → α} (hf : ∀ t k, f { t with index := k } = f t)
    (k : Nat) (ts : List Token) : (numbered k ts).map f = ts.map f := by
  induction ts generalizing k with
  | nil => rfl
  | cons t ts ih => rw [numbered, List.map_cons, List.map_cons, ih, hf]

namespace TokenStream

theorem drainWithin_lexes {n : Nat} {l : Lexer} (hn : l.reader.left < n)
    (h : Listener.stopsAt l.listeners = false) (tokens : Array Token)
    (ht : ∀ t ∈ tokens, t.kind ≠ .eof) :
    ∃ ts l' s, Lexes l ts l' ∧ drainWithin n l tokens ht = .ok s ∧
      s.tokens = tokens ++ (numbered tokens.size ts).toArray ∧
      s.eof = { l'.eofToken with index := s.tokens.size } := by
  induction n generalizing l tokens with
  | zero => omega
  | succ n ih =>
    obtain ⟨l', t, hnext, hl', hc⟩ := Lexer.nextWithin_lexes (Nat.le_refl l.reader.left) h
    have hnext : l.next = (l', .ok t) := hnext
    simp only [drainWithin, hnext]
    rcases hc with ⟨rfl, hd⟩ | ⟨hk, hlt, hts⟩
    · rw [dif_pos (by rfl)]
      exact ⟨[], l', _, hd, rfl, by simp [ofTokens, numbered], rfl⟩
    · rw [dif_neg hk]
      obtain ⟨ts, l'', s, hlex, hs, htokens, heof⟩ := ih (by omega) hl' _ _
      refine ⟨t :: ts, l'', s, hts ts l'' hlex, hs, ?_, heof⟩
      rw [htokens]
      simp [numbered]

/-- A stream has the tokens of its text, numbered, and the end behind them. -/
theorem ofLexer_lexes {l : Lexer} (h : Listener.stopsAt l.listeners = false) :
    ∃ ts l' s, Lexes l ts l' ∧ ofLexer l = .ok s ∧ s.tokens = (numbered 0 ts).toArray ∧
      s.eof = { l'.eofToken with index := s.tokens.size } := by
  obtain ⟨ts, l', s, hlex, hs, htokens, heof⟩ :=
    drainWithin_lexes (Nat.lt_succ_self _) h #[] (by simp)
  exact ⟨ts, l', s, hlex, hs, by simpa using htokens, heof⟩

end TokenStream

end ApexSyntax
