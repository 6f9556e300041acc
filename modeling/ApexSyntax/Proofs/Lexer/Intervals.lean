-- The tokens of a text as intervals of its characters: they follow one another
-- without overlapping, and what lies between them was lost to an error.
import ApexSyntax.Proofs.Lexer.Answers
import ApexSyntax.Proofs.Lexer.Losses
import ApexSyntax.Proofs.Lexer.Tiling
import Mathlib.Data.List.Forall2

namespace ApexSyntax

/-! ## One call after the other -/

namespace Lexer

/-- The lexer after some calls. -/
def afterCalls (l : Lexer) : Nat → Lexer
  | 0 => l
  | n + 1 => l.next.1.afterCalls n

/-- What a call gives; the first call has the number zero. -/
def nthCall (l : Lexer) (n : Nat) : Except SyntaxError Token := (l.afterCalls n).next.2

/-- A call that gives a token before the end leaves the lexer where it can go on. -/
theorem done_nextWithin {n : Nat} {l l' : Lexer} {t : Token} (h : l.nextWithin n = (l', .ok t))
    (ht : t.kind ≠ .eof) : l'.done = l.done := by
  induction n generalizing l with
  | zero => cases h; exact absurd rfl ht
  | succ n ih =>
    unfold nextWithin at h
    split at h
    · cases h; exact absurd rfl ht
    · split at h
      · cases h; rfl
      · split at h
        · cases h
        · rw [ih h]; rfl

end Lexer

namespace Lexes

variable {l l' : Lexer} {ts : List Token}

/-- The lexer behind a text has nothing more to read. -/
theorem ends (h : Lexes l ts l') : l'.reader.rest = [] ∧ l'.done = true := by
  induction h with
  | done hr => exact ⟨hr, rfl⟩
  | token _ _ _ ih => exact ih
  | unreadable _ _ _ ih => exact ih

/-- Behind a text every call gives the end again, and changes nothing. -/
theorem next_end (h : Lexes l ts l') : l'.next = (l', .ok l'.eofToken) := by
  obtain ⟨hr, hd⟩ := h.ends
  have hl : { l' with done := true } = l' := by rw [← hd]
  unfold Lexer.next Lexer.nextWithin
  split
  · rw [hl]
  · split
    · rw [hl]
    · rename_i hrest
      rw [hr] at hrest
      cases hrest

theorem next_nil (h : Lexes l [] l') (hl : Listener.stopsAt l.listeners = false) :
    l.next = (l', .ok l'.eofToken) := by
  obtain ⟨l₁, t, hnext, hl₁, ⟨rfl, h₁⟩ | ⟨_, _, hcons⟩⟩ :=
    Lexer.nextWithin_lexes (Nat.le_refl l.reader.left) hl
  · obtain ⟨_, rfl⟩ := h.unique h₁
    exact hnext
  · obtain ⟨ts, l₂, _, h₂⟩ := Lexer.readAll_lexes hl₁
    cases (h.unique (hcons ts l₂ h₂)).1

/-- A call takes the first of the tokens, and is not done. -/
theorem next_cons {t : Token} (h : Lexes l (t :: ts) l')
    (hl : Listener.stopsAt l.listeners = false) (hd : l.done = false) :
    ∃ l₁, l.next = (l₁, .ok t) ∧ Listener.stopsAt l₁.listeners = false ∧ l₁.done = false ∧
      Lexes l₁ ts l' := by
  obtain ⟨l₁, u, hnext, hl₁, ⟨_, h₁⟩ | ⟨hu, _, hcons⟩⟩ :=
    Lexer.nextWithin_lexes (Nat.le_refl l.reader.left) hl
  · cases (h.unique h₁).1
  · obtain ⟨us, l₂, _, h₂⟩ := Lexer.readAll_lexes hl₁
    obtain ⟨hts, rfl⟩ := h.unique (hcons us l₂ h₂)
    cases hts
    exact ⟨l₁, hnext, hl₁, (Lexer.done_nextWithin hnext hu).trans hd, h₂⟩

theorem afterCalls_end (h : Lexes l ts l') (n : Nat) : l'.afterCalls n = l' := by
  induction n with
  | zero => rfl
  | succ n ih => rw [Lexer.afterCalls, h.next_end, ih]

theorem afterCalls_length (h : Lexes l ts l') (hl : Listener.stopsAt l.listeners = false)
    (hd : l.done = false) : l.afterCalls (ts.length + 1) = l' := by
  induction ts generalizing l with
  | nil => exact congrArg Prod.fst (h.next_nil hl)
  | cons t ts ih =>
    obtain ⟨l₁, hnext, hl₁, hd₁, h₁⟩ := h.next_cons hl hd
    rw [List.length_cons, Lexer.afterCalls, hnext]
    exact ih h₁ hl₁ hd₁

/-- Each call gives the next token of the text. Once they are used up, every
call gives the end, and the lexer is done. -/
theorem calls (h : Lexes l ts l') (hl : Listener.stopsAt l.listeners = false)
    (hd : l.done = false) (n : Nat) :
    l.nthCall n = .ok (ts.getD n l'.eofToken) ∧
      (l.afterCalls (n + 1)).done = decide (ts.length ≤ n) := by
  induction ts generalizing l n with
  | nil =>
    have hnext := h.next_nil hl
    have hdone : ∀ k, l.afterCalls (k + 1) = l' := by
      intro k
      rw [Lexer.afterCalls, hnext, h.afterCalls_end]
    refine ⟨?_, by rw [hdone, h.ends.2]; simp⟩
    cases n with
    | zero => exact congrArg Prod.snd hnext
    | succ n => rw [Lexer.nthCall, hdone, h.next_end]; rfl
  | cons t ts ih =>
    obtain ⟨l₁, hnext, hl₁, hd₁, h₁⟩ := h.next_cons hl hd
    have hafter : ∀ k, l.afterCalls (k + 1) = l₁.afterCalls k := by
      intro k
      rw [Lexer.afterCalls, hnext]
    cases n with
    | zero => exact ⟨congrArg Prod.snd hnext, by rw [hafter, Lexer.afterCalls, hd₁]; simp⟩
    | succ n =>
      obtain ⟨hcall, hdone⟩ := ih h₁ hl₁ hd₁ n
      refine ⟨?_, by rw [hafter, hdone]; simp⟩
      rw [Lexer.nthCall, hafter]
      exact hcall

end Lexes

/-! ## Tokens and losses -/

/-- What is lost of a text: single characters, and all from a comment on that is
not closed. -/
structure Loss where
  characters : List Nat
  comment : Option Nat

namespace Loss

/-- Where something is lost, in order. -/
def places (loss : Loss) : List Nat := loss.characters ++ loss.comment.toList

/-- The number of errors that lose so much. -/
def count (loss : Loss) : Nat := loss.characters.length + loss.comment.toList.length

/-- The character at a place is lost. -/
def Takes (loss : Loss) (j : Nat) : Prop :=
  j ∈ loss.characters ∨ ∃ k ∈ loss.comment, k ≤ j

end Loss

/-- Tokens and losses share all characters from a place on: the tokens one after
the other, and whatever they leave for a reason. -/
structure Tiled (shown : List Char) (i : Nat) (ts : List Token) (loss : Loss) : Prop where
  tokens : ∀ t ∈ ts, i ≤ t.start ∧ t.start ≤ t.stop ∧ t.stop < shown.length
  separated : ts.Pairwise fun a b => a.stop < b.start
  characters : ∀ j ∈ loss.characters,
    i ≤ j ∧ j < shown.length ∧ LosesCharacter (shown.drop j)
  sorted : loss.characters.Pairwise (· < ·)
  comment : ∀ k ∈ loss.comment,
    i ≤ k ∧ k < shown.length ∧ LosesRest (shown.drop k) ∧ ∀ j ∈ loss.characters, j < k
  covers : ∀ j, i ≤ j → j < shown.length →
    ((∃ t ∈ ts, t.start ≤ j ∧ j ≤ t.stop) ↔ ¬ loss.Takes j)

namespace Tiled

variable {shown : List Char} {i n : Nat} {ts : List Token} {loss : Loss}

theorem nil (h : shown.length ≤ i) : Tiled shown i [] ⟨[], none⟩ where
  tokens := by simp
  separated := .nil
  characters := by simp
  sorted := .nil
  comment := by simp
  covers j hij hj := by omega

/-- Nothing is left behind the last character. -/
theorem eq_nil (h : Tiled shown i ts loss) (hi : shown.length ≤ i) :
    ts = [] ∧ loss = ⟨[], none⟩ := by
  have hts : ts = [] := by
    rw [List.eq_nil_iff_forall_not_mem]
    intro t ht
    have := h.tokens t ht
    omega
  have hcs : loss.characters = [] := by
    rw [List.eq_nil_iff_forall_not_mem]
    intro j hj
    have := h.characters j hj
    omega
  have hk : loss.comment = none := by
    rw [Option.eq_none_iff_forall_not_mem]
    intro k hk
    have := h.comment k hk
    omega
  refine ⟨hts, ?_⟩
  rcases loss with ⟨cs, k⟩
  cases hcs
  cases hk
  rfl

/-- All that is lost lies at the place or behind. -/
theorem le_of_takes (h : Tiled shown i ts loss) {j : Nat} (hj : loss.Takes j) : i ≤ j := by
  rcases hj with hj | ⟨k, hk, hkj⟩
  · exact (h.characters j hj).1
  · exact Nat.le_trans (h.comment k hk).1 hkj

theorem token (h : Tiled shown (i + n) ts loss) {t : Token} (hs : t.start = i)
    (hl : t.stop + 1 = i + n) (hn : 0 < n) (hi : i + n ≤ shown.length) :
    Tiled shown i (t :: ts) loss where
  tokens := by
    intro u hu
    rcases List.mem_cons.1 hu with rfl | hu
    · omega
    · have := h.tokens u hu
      omega
  separated := by
    refine .cons ?_ h.separated
    intro u hu
    have := h.tokens u hu
    omega
  characters := by
    intro j hj
    have := h.characters j hj
    exact ⟨by omega, this.2⟩
  sorted := h.sorted
  comment := by
    intro k hk
    have := h.comment k hk
    exact ⟨by omega, this.2⟩
  covers := by
    intro j hij hj
    simp only [List.mem_cons, exists_eq_or_imp]
    by_cases hlt : j < i + n
    · refine ⟨fun _ hloss => ?_, fun _ => .inl (by omega)⟩
      have := h.le_of_takes hloss
      omega
    · rw [← h.covers j (by omega) hj]
      exact ⟨fun hc => hc.resolve_left (by omega), .inr⟩

theorem character (h : Tiled shown (i + 1) ts loss) (hi : i < shown.length)
    (hlost : LosesCharacter (shown.drop i)) :
    Tiled shown i ts ⟨i :: loss.characters, loss.comment⟩ where
  tokens := by
    intro t ht
    have := h.tokens t ht
    exact ⟨by omega, this.2⟩
  separated := h.separated
  characters := by
    intro j hj
    rcases List.mem_cons.1 hj with rfl | hj
    · exact ⟨Nat.le_refl _, hi, hlost⟩
    · have := h.characters j hj
      exact ⟨by omega, this.2⟩
  sorted := .cons (fun j hj => (h.characters j hj).1) h.sorted
  comment := by
    intro k hk
    obtain ⟨hik, hkl, hrest, hall⟩ := h.comment k hk
    refine ⟨by omega, hkl, hrest, ?_⟩
    intro j hj
    rcases List.mem_cons.1 hj with rfl | hj
    · omega
    · exact hall j hj
  covers := by
    intro j hij hj
    by_cases heq : j = i
    · subst heq
      refine ⟨fun ⟨t, ht, hc⟩ => ?_, fun hno => absurd (.inl List.mem_cons_self) hno⟩
      have := h.tokens t ht
      omega
    · rw [h.covers j (by omega) hj, Loss.Takes, Loss.Takes, List.mem_cons]
      simp [heq]

theorem openComment (hi : i < shown.length) (hlost : LosesRest (shown.drop i)) :
    Tiled shown i [] ⟨[], some i⟩ where
  tokens := by simp
  separated := .nil
  characters := by simp
  sorted := .nil
  comment := by
    intro k hk
    cases hk
    exact ⟨Nat.le_refl _, hi, hlost, by simp⟩
  covers := by
    intro j hij _
    simp [Loss.Takes, hij]

end Tiled

namespace Lexer

/-- All characters of the text as the lexer sees them. -/
def shown (l : Lexer) : List Char := l.reader.cursor.source.toList.map l.reader.casing.show

theorem rest_eq_drop (l : Lexer) : l.reader.rest = l.shown.drop l.index := by
  rw [rest_eq_ahead, ahead, shown, List.map_drop]

theorem index_skip {l : Lexer} {n : Nat} (h : n ≤ l.reader.rest.length) :
    (l.skip n).index = l.index + n := by
  have hi : (l.skip n).index = min (l.index + n) l.reader.cursor.source.size := rfl
  have hle : l.index ≤ l.reader.cursor.source.size := l.reader.cursor.index_le
  rw [Text.Reader.length_rest] at h
  have hleft : l.reader.left = l.reader.cursor.source.size - l.index := rfl
  omega

theorem index_add_rest (l : Lexer) : l.index + l.reader.rest.length = l.shown.length := by
  have hle : l.index ≤ l.reader.cursor.source.size := l.reader.cursor.index_le
  rw [rest_eq_drop, List.length_drop]
  simp only [shown, List.length_map, Array.length_toList]
  omega

end Lexer

namespace Answers

variable {l l' : Lexer} {as : List Answer}

/-- The tokens of a text and what is lost share its characters. Each error is about
what stands where something is lost. -/
theorem tiled (h : Answers l as l') :
    ∃ loss, Tiled l.shown l.index (Answer.tokens as) loss ∧
      List.Forall₂ l.Finds loss.places (Answer.errors as) := by
  induction h with
  | @done l hr =>
    have hi := l.index_add_rest
    rw [hr, List.length_nil] at hi
    exact ⟨_, .nil (by omega), .nil⟩
  | @token l l' as c rest kind n hr hs _ ih =>
    obtain ⟨loss, ht, he⟩ := ih
    have hb := Lexeme.scan_bounds c rest
    have hi := l.index_add_rest
    rw [hs] at hb
    rw [hr, List.length_cons] at hi
    simp only [Lexeme.size] at hb
    have hle : n ≤ l.reader.rest.length := by rw [hr]; exact hb.2
    have ht : Tiled l.shown (l.index + n) (Answer.tokens as) loss := by
      rw [← Lexer.index_skip hle]
      exact ht
    exact ⟨loss, ht.token rfl (by simp [Token.stop, Lexer.tokenOf]) hb.1 (by omega),
      he.imp fun _ _ hf => hf.of_skip hle⟩
  | @unreadable l l' as c rest shown skipped hr hs _ ih =>
    obtain ⟨loss, ht, he⟩ := ih
    have hi := l.index_add_rest
    rw [hr, List.length_cons] at hi
    have hdrop := l.rest_eq_drop
    rw [hr] at hdrop
    have hb := Lexeme.scan_bounds c rest
    rw [hs] at hb
    have hle : skipped ≤ l.reader.rest.length := by rw [hr]; exact hb.2
    have hfind : l.Finds l.index (l.unreadableError shown) := by
      obtain ⟨h0, h1⟩ := Lexeme.shown_bounds hs
      exact ⟨l, shown, .here l, rfl, h0, by rw [hr]; exact h1, rfl⟩
    have ht : Tiled l.shown (l.index + skipped) (Answer.tokens as) loss := by
      rw [← Lexer.index_skip hle]
      exact ht
    have hfinds : List.Forall₂ l.Finds loss.places (Answer.errors as) :=
      he.imp fun _ _ hf => hf.of_report.of_skip hle
    rcases Lexeme.loses_of_unreadable hs with ⟨rfl, hlost⟩ | ⟨rfl, hlost⟩
    · exact ⟨_, ht.character (by omega) (by rwa [← hdrop]), .cons hfind hfinds⟩
    · -- Nothing is left behind the comment, so nothing else is read or lost.
      obtain ⟨hts, rfl⟩ := ht.eq_nil (by omega)
      rw [Answer.tokens_error, Answer.errors_error, hts, List.forall₂_nil_left_iff.1 hfinds]
      exact ⟨_, .openComment (by omega) (by rwa [← hdrop]), .cons hfind .nil⟩

end Answers

namespace Lexes

variable {l l' : Lexer} {ts : List Token}

/-- The tokens of a text and what is lost share its characters, one loss for
each error. -/
theorem tiled (h : Lexes l ts l') :
    ∃ loss, Tiled l.shown l.index ts loss ∧ l'.errorCount = l.errorCount + loss.count := by
  obtain ⟨as, ha, rfl⟩ := h.answers
  obtain ⟨loss, ht, he⟩ := ha.tiled
  have hcount : loss.count = loss.places.length := List.length_append.symm
  exact ⟨loss, ht, by rw [ha.errorCount, hcount, he.length_eq]⟩

/-- A token is the piece of the text between its first and its last character. -/
theorem text_eq_slice (h : Lexes l ts l') : ∀ t ∈ ts,
    t.text = l.reader.cursor.slice t.start t.stop.toNat := by
  induction h with
  | done _ => simp
  | @token l l' ts c rest kind n hr hs _ ih =>
    intro t ht
    rcases List.mem_cons.1 ht with rfl | ht
    · have hb := Lexeme.scan_bounds c rest
      rw [hs] at hb
      have hn : ((l.tokenOf kind n).stop.toNat + 1) = l.index + n := by
        have h0 : (l.tokenOf kind n).stop = (l.index : Int) + n - 1 := rfl
        have h1 : 0 < n := hb.1
        omega
      rw [← String.toList_inj, Lexer.text_tokenOf, Text.Cursor.slice, hn, String.toList_ofList,
        Lexer.ahead, List.drop_take]
      have h2 : (l.tokenOf kind n).start = l.index := rfl
      rw [h2, Nat.add_sub_cancel_left]
    · exact ih t ht
  | unreadable _ _ _ ih => exact ih

/-- The end stands behind the last character. -/
theorem index_end (h : Lexes l ts l') : l'.index = l.shown.length := by
  have hsame : l'.shown = l.shown := by
    induction h with
    | done _ => rfl
    | token _ _ _ ih => exact ih
    | unreadable _ _ _ ih => exact ih
  have hi := l'.index_add_rest
  rw [h.ends.1, hsame] at hi
  exact hi

end Lexes

/-! ## Whole texts -/

/-- Lexing tiles a text. The calls give tokens, then the end for ever, and the
lexer is done from the first end on. Tokens are pieces of the text that follow one
another; between them, every error loses one character, or all from a comment
on that is not closed. So the tokens are the whole text when there is no error,
and only then. -/
theorem tokens_tile_text (casing : Text.Casing) (text : String) (ls : List Listener)
    (hls : Listener.stopsAt ls = false) :
    let l : Lexer := { Lexer.ofString casing text with listeners := ls }
    ∃ (ts : List Token) (eof : Token) (loss : Loss),
      (∀ n, l.nthCall n = .ok (ts.getD n eof) ∧
        (l.afterCalls (n + 1)).done = decide (ts.length ≤ n)) ∧
      (eof.isEof ∧ eof.start = text.length ∧ eof.stop = text.length - 1) ∧
      (∀ t ∈ ts, t.kind ≠ .eof ∧
        t.text = (Text.Cursor.ofString text).slice t.start t.stop.toNat) ∧
      Tiled (text.toList.map casing.show) 0 ts loss ∧
      (l.afterCalls (ts.length + 1)).errorCount = loss.count ∧
      ∃ s, TokenStream.ofLexer l = .ok s ∧
        (s.text = text ↔ (l.afterCalls (ts.length + 1)).errorCount = 0) := by
  intro l
  obtain ⟨ts, l', s, hlex, hs, htokens, _⟩ := TokenStream.ofLexer_lexes (l := l) hls
  obtain ⟨loss, htiled, hcount⟩ := hlex.tiled
  have hshown : l.shown = text.toList.map casing.show := rfl
  have hlast : l.afterCalls (ts.length + 1) = l' := hlex.afterCalls_length hls rfl
  have hindex : l'.index = text.length := by
    rw [hlex.index_end, hshown, List.length_map, String.length_toList]
  have h0 : l.errorCount = 0 := rfl
  refine ⟨ts, l'.eofToken, loss, hlex.calls hls rfl, ⟨rfl, hindex, ?_⟩, ?_, htiled, ?_, s, hs, ?_⟩
  · rw [← hindex]
    simp [Token.stop, Lexer.eofToken, Token.endOfText]
  · intro t ht
    exact ⟨hlex.kind_ne_eof t ht, hlex.text_eq_slice t ht⟩
  · rw [hlast, hcount, h0, Nat.zero_add]
  · rw [hlast]
    exact hlex.text_eq_iff htokens (Lexer.ahead_ofString casing text)

/-- Two tokens of a text that loses a character, a quote and a comment. -/
theorem tokens_tile_openComment :
    Listener.stopsAt [.counter] = false ∧
      ∃ ts loss, ts.length = 2 ∧ Tiled "# ab'/* ".toList 0 ts loss ∧ loss.count = 3 := by
  refine ⟨rfl, ?_⟩
  obtain ⟨ts, eof, loss, hcalls, _, _, htiled, hcount, _⟩ :=
    tokens_tile_text .exact "# ab'/* " [.counter] rfl
  let l : Lexer := { Lexer.ofString .exact "# ab'/* " with listeners := [.counter] }
  have h1 : (l.afterCalls 2).done = false := by decide +kernel
  have h2 : (l.afterCalls 3).done = true := by decide +kernel
  have h3 : (l.afterCalls 3).errorCount = 3 := by decide +kernel
  rw [(hcalls 1).2, decide_eq_false_iff_not] at h1
  rw [(hcalls 2).2, decide_eq_true_eq] at h2
  have hlen : ts.length = 2 := by omega
  rw [hlen, h3] at hcount
  rw [show Text.Casing.show .exact = id from rfl, List.map_id] at htiled
  exact ⟨ts, loss, hlen, htiled, hcount.symm⟩

end ApexSyntax
