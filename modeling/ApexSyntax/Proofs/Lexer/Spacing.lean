-- Tokens read again. The texts of the tokens that the parser sees, with one space between
-- each two, are a text without errors that has the same tokens. So no token owes what it
-- is to what stood behind it, and spacing a text again changes nothing.
import ApexSyntax.Proofs.Lexer.Resuming
import ApexSyntax.Proofs.Lexer.Standing
import ApexSyntax.Proofs.Lexer.Tiling

namespace ApexSyntax

open Text

/-! ## Tokens apart from their places -/

namespace Token

/-- What a token says, wherever it stands. -/
def content (t : Token) : Kind × String × String := (t.kind, t.word, t.text)

/-- A token that is seen is read from its own characters `c :: w`, wherever a space or the
end of the text follows. -/
structure Stands (casing : Casing) (c : Char) (w : List Char) (t : Token) : Prop where
  text : t.text.toList.map casing.show = c :: w
  word : t.word = if t.kind.isWord then String.ofList (c :: w) else ""
  seen : t.isHidden = false
  blank : isBlank c = false
  scan (more : List Char) : Breaks more → Lexeme.scan c (w ++ more) = .token t.kind (w.length + 1)

end Token

/-- The tokens of a stream that the parser sees are those of its text. -/
theorem visible_content {s : TokenStream} {ts : List Token}
    (h : s.tokens = (numbered 0 ts).toArray) :
    s.visible.toList.map Token.content =
      (ts.filter fun t => !t.isHidden).map Token.content := by
  have hfilter : ∀ us : List Token, (us.filter fun t => !t.isHidden).map Token.content =
      (us.map Token.content).filter fun c => !c.1.isHidden := fun us => by
    rw [List.filter_map]
    rfl
  rw [s.visible_eq, h, Array.toList_filter, hfilter, hfilter, map_numbered fun _ _ => rfl]

/-- The texts of some tokens, with a space between each two. -/
def spaced (ts : List Token) : String := String.intercalate " " (ts.map Token.text)

/-- Only the texts of the tokens count. -/
theorem spaced_congr {ts us : List Token} (h : ts.map Token.content = us.map Token.content) :
    spaced ts = spaced us := by
  have htext : ts.map Token.text = us.map Token.text := by
    simpa [Token.content, Function.comp_def] using congrArg (List.map (·.2.2)) h
  rw [spaced, spaced, htext]

@[simp] theorem toList_spaced_singleton (t : Token) : (spaced [t]).toList = t.text.toList := by
  simp [spaced]

theorem toList_spaced_cons (t u : Token) (ts : List Token) :
    (spaced (t :: u :: ts)).toList = t.text.toList ++ ' ' :: (spaced (u :: ts)).toList := by
  rw [spaced, List.map_cons, List.map_cons, String.intercalate_cons_cons]
  simp [spaced]

theorem exists_toList_spaced (t : Token) (ts : List Token) :
    ∃ rest, (spaced (t :: ts)).toList = t.text.toList ++ rest := by
  cases ts with
  | nil => exact ⟨[], by simp⟩
  | cons u ts => exact ⟨_, toList_spaced_cons t u ts⟩

/-! ## Reading spaced tokens -/

namespace Lexer

theorem shown_tokenOf (l : Lexer) (kind : Kind) (n : Nat) :
    (l.tokenOf kind n).text.toList.map l.reader.casing.show = l.reader.rest.take n := by
  rw [text_tokenOf, List.map_take, ← rest_eq_ahead]

variable {l : Lexer} {t : Token} {c : Char} {w behind : List Char}

/-- Where a token's own text comes next, and then a space or the end, the token is read. -/
theorem reads_of_stands (h : t.Stands l.reader.casing c w) (ha : l.ahead = t.text.toList ++ behind)
    (hb : Breaks (behind.map l.reader.casing.show)) :
    ∃ u l', u.content = t.content ∧ u.isHidden = false ∧ l'.ahead = behind ∧
      l'.reader.casing = l.reader.casing ∧ l'.errorCount = l.errorCount ∧
      ∀ us l'', Lexes l' us l'' → Lexes l (u :: us) l'' := by
  have hrest : l.reader.rest = c :: (w ++ behind.map l.reader.casing.show) := by
    rw [rest_eq_ahead, ha, List.map_append, h.text]
    rfl
  have hlen : w.length + 1 = t.text.toList.length := by
    rw [← List.length_cons, ← h.text, List.length_map]
  refine ⟨l.tokenOf t.kind (w.length + 1), l.skip (w.length + 1), ?_, h.seen, ?_, rfl, rfl,
    fun us l'' hus => .token hrest (h.scan _ hb) hus⟩
  · have htext : (l.tokenOf t.kind (w.length + 1)).text = t.text := by
      rw [← String.toList_inj, text_tokenOf, ha, hlen, List.take_left]
    have hword : (l.tokenOf t.kind (w.length + 1)).word = t.word := by
      rw [h.word, tokenOf, hrest]
      simp
    rw [Token.content, Token.content, htext, hword]
    rfl
  · rw [ahead_skip, ha, hlen, List.drop_left]

/-- A single space is a token of its own, which is not seen. -/
theorem reads_space (ha : l.ahead = ' ' :: behind)
    (hb : ∀ d ∈ (behind.map l.reader.casing.show).head?, isBlank d = false) :
    ∃ u l', u.isHidden = true ∧ l'.ahead = behind ∧ l'.reader.casing = l.reader.casing ∧
      l'.errorCount = l.errorCount ∧ ∀ us l'', Lexes l' us l'' → Lexes l (u :: us) l'' := by
  have hspace : l.reader.casing.show ' ' = ' ' := by
    cases l.reader.casing <;> rfl
  have hrest : l.reader.rest = ' ' :: behind.map l.reader.casing.show := by
    rw [rest_eq_ahead, ha, List.map_cons, hspace]
  have hspan : spanLength isBlank (behind.map l.reader.casing.show) = 0 := by
    cases hcs : behind.map l.reader.casing.show with
    | nil => rfl
    | cons d ds => simp [spanLength, hb d (by rw [hcs]; rfl)]
  have hscan : Lexeme.scan ' ' (behind.map l.reader.casing.show) = .token .blank 1 := by
    rw [Lexeme.scan, if_pos (by rfl), hspan]
  refine ⟨l.tokenOf .blank 1, l.skip 1, rfl, ?_, rfl, rfl,
    fun us l'' hus => .token hrest hscan hus⟩
  rw [ahead_skip, ha]
  rfl

end Lexer

/-- Every token of a text that is seen stands by itself. -/
theorem Lexes.stands {l l' : Lexer} {ts : List Token} (h : Lexes l ts l') :
    ∀ t ∈ ts, t.isHidden = false → ∃ c w, t.Stands l.reader.casing c w := by
  induction h with
  | done _ => simp
  | @token l l' ts c rest kind n hr hs _ ih =>
    intro t ht hseen
    rcases List.mem_cons.1 ht with rfl | ht
    · have hb := Lexeme.scan_bounds c rest
      rw [hs] at hb
      simp only [Lexeme.size] at hb
      have hlen : (rest.take (n - 1)).length + 1 = n := by
        rw [List.length_take]
        omega
      have htake : l.reader.rest.take n = c :: rest.take (n - 1) := by
        obtain ⟨k, rfl⟩ := Nat.exists_eq_add_of_le' hb.1
        rw [hr]
        rfl
      refine ⟨c, rest.take (n - 1), ?_, ?_, hseen, Lexeme.isBlank_of_scan hs hseen, ?_⟩
      · rw [Lexer.shown_tokenOf, htake]
      · rw [← htake]
        rfl
      · intro more hmore
        rw [Lexeme.scan_cut hmore hs hseen, hlen]
        rfl
    · exact ih t ht hseen
  | unreadable _ _ _ ih => exact ih

/-- Tokens that stand by themselves are read again from their texts with spaces between. -/
theorem lexes_spaced {casing : Casing} {ts : List Token}
    (h : ∀ t ∈ ts, ∃ c w, t.Stands casing c w) {l : Lexer} (hc : l.reader.casing = casing)
    (ha : l.ahead = (spaced ts).toList) :
    ∃ us l', Lexes l us l' ∧ l'.errorCount = l.errorCount ∧
      (us.filter fun u => !u.isHidden).map Token.content = ts.map Token.content := by
  induction ts generalizing l with
  | nil =>
    have hr : l.reader.rest = [] := by
      rw [Lexer.rest_eq_ahead, ha]
      rfl
    exact ⟨[], _, .done hr, rfl, rfl⟩
  | cons t ts ih =>
    obtain ⟨c, w, ht⟩ := h t List.mem_cons_self
    rw [← hc] at ht
    cases ts with
    | nil =>
      have hend : l.ahead = t.text.toList ++ [] := by simpa using ha
      obtain ⟨u, l₁, hu, hseen, ha₁, _, he, hlex⟩ := Lexer.reads_of_stands ht hend .nothing
      have hr : l₁.reader.rest = [] := by
        rw [Lexer.rest_eq_ahead, ha₁]
        rfl
      exact ⟨[u], _, hlex _ _ (.done hr), he, by simp [hseen, hu]⟩
    | cons t' ts =>
      have hbehind := fun t ht => h t (List.mem_cons_of_mem _ ht)
      obtain ⟨c', w', ht'⟩ := hbehind t' List.mem_cons_self
      rw [toList_spaced_cons] at ha
      obtain ⟨u, l₁, hu, hseen, ha₁, hc₁, he₁, hlex₁⟩ := Lexer.reads_of_stands ht ha
        (by cases l.reader.casing <;> exact .space _)
      obtain ⟨b, l₂, hhidden, ha₂, hc₂, he₂, hlex₂⟩ := Lexer.reads_space ha₁ (by
        obtain ⟨rest, hrest⟩ := exists_toList_spaced t' ts
        rw [hrest, List.map_append, hc₁, hc, ht'.text]
        simpa using ht'.blank)
      obtain ⟨us, l₃, hus, he₃, hmap⟩ := ih hbehind (hc₂.trans (hc₁.trans hc)) ha₂
      refine ⟨u :: b :: us, l₃, hlex₁ _ _ (hlex₂ _ _ hus), by rw [he₃, he₂, he₁], ?_⟩
      simp only [List.filter_cons, hseen, hhidden, List.map_cons, hu, hmap, Bool.not_false,
        Bool.not_true, if_true, Bool.false_eq_true, if_false]

/-! ## Texts and their spaced tokens -/

namespace TokenStream

/-- The text of the tokens that the parser sees, spaced. -/
def spaced (s : TokenStream) : String := ApexSyntax.spaced s.visible.toList

end TokenStream

/-- Tokens are read again as themselves. The spaced tokens of a text are read without an
error, whoever listens, and the parser sees the same kinds, words and texts in the same
order. Spacing them again gives the same text. -/
theorem tokens_reread (casing : Casing) (text : String) (ls : List Listener) :
    ∃ s s', TokenStream.ofString casing text = .ok s ∧
      TokenStream.ofString casing s.spaced = .ok s' ∧
      (let l : Lexer := { Lexer.ofString casing s.spaced with listeners := ls }
      Answer.errors l.untilDone.1 = [] ∧ l.untilDone.2.listeners = ls ∧
        l.untilDone.2.errorCount = 0) ∧
      s'.visible.toList.map Token.content = s.visible.toList.map Token.content ∧
      s'.spaced = s.spaced := by
  obtain ⟨ts, l', s, hlex, hs, htokens, _⟩ :=
    TokenStream.ofLexer_lexes (l := Lexer.ofString casing text) rfl
  have hcontent := visible_content htokens
  have hspaced : s.spaced = spaced (ts.filter fun t => !t.isHidden) := spaced_congr hcontent
  obtain ⟨us, l₁, s', hlex', hs', htokens', _⟩ :=
    TokenStream.ofLexer_lexes (l := Lexer.ofString casing s.spaced) rfl
  have hstands : ∀ t ∈ ts.filter fun t => !t.isHidden, ∃ c w, t.Stands casing c w := by
    intro t ht
    obtain ⟨ht, hseen⟩ := List.mem_filter.1 ht
    exact hlex.stands t ht (by simpa using hseen)
  obtain ⟨us', l₂, hus, he, hmap⟩ :=
    lexes_spaced hstands (l := Lexer.ofString casing s.spaced) rfl
      (by rw [Lexer.ahead_ofString, hspaced])
  obtain ⟨rfl, rfl⟩ := hus.unique hlex'
  have hsame : s'.visible.toList.map Token.content = s.visible.toList.map Token.content := by
    rw [visible_content htokens', hmap, hcontent]
  refine ⟨s, s', hs, hs', ?_, hsame, spaced_congr hsame⟩
  obtain ⟨as, ha, _⟩ := hus.answers
  have hnone : Answer.errors as = [] := by
    rw [← List.length_eq_zero_iff]
    have := ha.errorCount
    omega
  have hcalls := (ha.withListeners ls).untilDone_eq rfl
  dsimp only at hcalls ⊢
  rw [hcalls, hnone]
  refine ⟨?_, rfl, he⟩
  rw [Answer.errors_append]
  split
  · rw [hnone]
    rfl
  · rw [Answer.errors_map_ok]
    rfl

example : (TokenStream.ofString .exact "a>=1.5d/*c*/'x").toOption.map TokenStream.spaced =
    some "a >= 1.5d x" := by
  decide +kernel

end ApexSyntax
