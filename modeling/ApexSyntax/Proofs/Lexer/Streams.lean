-- The tokens of a stream and the parser's view of them. The tokens are numbered, the end is the
-- last of them and stands there alone, and the parser sees all that are not hidden; behind these
-- it finds the end, however far it looks. A lexer makes such a stream, unless a listener throws
-- at something that is no token.
import ApexSyntax.Proofs.Lexer.Places
import ApexSyntax.Proofs.Lexer.Resuming
import ApexSyntax.Proofs.Lexer.Touching

namespace ApexSyntax

namespace TokenStream

/-! ## From a lexer -/

/-- The tokens of a stream are those of the lexer's text, with their numbers, and the end. -/
def Lists (s : TokenStream) (ts : List Token) (l : Lexer) : Prop :=
  s.tokens = (numbered 0 ts).toArray ∧ s.eof = { l.eofToken with index := s.tokens.size }

/-- With a listener that throws, a stream takes the tokens up to the first error. -/
theorem drainWithin_answers {l l' : Lexer} {as : List Answer} (h : Answers l as l')
    (hl : Listener.stopsAt l.listeners = true) {n : Nat} (hn : l.reader.left < n)
    (tokens : Array Token) (ht : ∀ t ∈ tokens, t.kind ≠ .eof) :
    match Answer.errors as with
    | [] => ∃ s, drainWithin n l tokens ht = .ok s ∧
      s.tokens = tokens ++ (numbered tokens.size (Answer.tokens as)).toArray ∧
      s.eof = { l'.eofToken with index := s.tokens.size }
    | e :: _ => drainWithin n l tokens ht = .error e := by
  induction h generalizing n tokens with
  | @done l hr =>
    obtain ⟨n, rfl⟩ := Nat.exists_eq_add_one_of_ne_zero (Nat.ne_zero_of_lt hn)
    refine ⟨ofTokens tokens l.eofToken ht, ?_, ?_, rfl⟩
    · simp only [drainWithin, Lexer.next_of_rest_nil hr]
      rfl
    · exact Array.append_empty.symm
  | @token l l' as c rest kind k hr hs _ ih =>
    obtain ⟨n, rfl⟩ := Nat.exists_eq_add_one_of_ne_zero (Nat.ne_zero_of_lt hn)
    have hkind : (l.tokenOf kind k).kind ≠ .eof := Lexeme.kind_scan_ne_eof hs
    have hlt := Lexer.left_skip_lt hr
    rw [hs] at hlt
    have hleft : (l.skip k).reader.left < n := Nat.lt_of_lt_of_le hlt (Nat.le_of_lt_succ hn)
    simp only [drainWithin, Lexer.next_token hr hs, dif_neg hkind, Answer.errors_ok,
      Answer.tokens_ok]
    have hrest := ih hl hleft (tokens.push { l.tokenOf kind k with index := tokens.size }) (by
      intro t hmem
      rcases Array.mem_push.1 hmem with hmem | rfl
      · exact ht t hmem
      · exact hkind)
    split
    · rename_i hnone
      rw [hnone] at hrest
      obtain ⟨s, hs, htokens, heof⟩ := hrest
      refine ⟨s, hs, ?_, heof⟩
      rw [htokens]
      simp [numbered]
    · rename_i hsome
      rw [hsome] at hrest
      exact hrest
  | @unreadable l l' as c rest shown skipped hr hs _ ih =>
    obtain ⟨n, rfl⟩ := Nat.exists_eq_add_one_of_ne_zero (Nat.ne_zero_of_lt hn)
    simp only [drainWithin, Lexer.next_throws hr hs hl]
    rfl

/-- A lexer gives the stream of its text, or fails with the first error if a listener throws. -/
theorem ofLexer_answers {l l' : Lexer} {as : List Answer} (h : Answers l as l') :
    match if Listener.stopsAt l.listeners then Answer.errors as else [] with
    | [] => ∃ s, ofLexer l = .ok s ∧ s.Lists (Answer.tokens as) l'
    | e :: _ => ofLexer l = .error e := by
  cases hl : Listener.stopsAt l.listeners with
  | true =>
    have hdrained := drainWithin_answers h hl (Nat.lt_succ_self _) #[] (by simp)
    rw [if_pos rfl]
    split
    · rename_i hnone
      rw [hnone] at hdrained
      obtain ⟨s, hs, htokens, heof⟩ := hdrained
      exact ⟨s, hs, by simpa using htokens, heof⟩
    · rename_i hsome
      rw [hsome] at hdrained
      exact hdrained
  | false =>
    obtain ⟨ts, l'', s, hlex, hs, htokens, heof⟩ := ofLexer_lexes hl
    obtain ⟨rfl, rfl⟩ := h.lexes.unique hlex
    exact ⟨s, hs, htokens, heof⟩

/-- A listener that throws lets no error pass. -/
theorem fails_iff {l l' : Lexer} {as : List Answer} (h : Answers l as l')
    (hl : Listener.stopsAt l.listeners = true) :
    (∃ e, ofLexer l = .error e) ↔ Answer.errors as ≠ [] := by
  have hanswers := ofLexer_answers h
  rw [if_pos hl] at hanswers
  split at hanswers
  · rename_i hnone
    obtain ⟨s, hs, -⟩ := hanswers
    refine ⟨fun ⟨e, he⟩ => ?_, fun herrors => absurd hnone herrors⟩
    rw [hs] at he
    cases he
  · rename_i e es hsome
    exact ⟨fun _ => by simp [hsome], fun _ => ⟨e, hanswers⟩⟩

theorem exists_lists_of_ok {l : Lexer} {s : TokenStream} (h : ofLexer l = .ok s) :
    ∃ ts l', Lexes l ts l' ∧ s.Lists ts l' := by
  obtain ⟨as, l', ha⟩ := l.exists_answers
  have hanswers := ofLexer_answers ha
  split at hanswers
  · obtain ⟨s', hs, hlists⟩ := hanswers
    obtain rfl := Except.ok.inj (hs.symm.trans h)
    exact ⟨_, l', ha.lexes, hlists⟩
  · rw [hanswers] at h
    cases h

/-! ## The parser's view -/

/-- The numbers of the tokens that the parser sees, the end last. -/
def visibleIndices (s : TokenStream) : List Nat := s.seen.map Token.index

/-- Where the parser finds the `i`th token that it sees among all tokens: the last of the numbers
stands for all behind it. -/
def indexOf (s : TokenStream) (i : Nat) : Nat :=
  (s.visibleIndices[i]?.or s.visibleIndices.getLast?).getD 0

/-- Tokens and the parser's view of them agree. -/
structure Coheres (s : TokenStream) : Prop where
  index_eq (i : Nat) (t : Token) : s.toList[i]? = some t → t.index = i
  kind_eq_eof_iff (i : Nat) (t : Token) :
    s.toList[i]? = some t → (t.kind = .eof ↔ i + 1 = s.toList.length)
  /-- The parser sees the tokens in their order. -/
  increasing : s.visibleIndices.Pairwise (· < ·)
  /-- It sees those that are not hidden, and no others. -/
  mem_visibleIndices_iff (i : Nat) :
    i ∈ s.visibleIndices ↔ ∃ t, s.toList[i]? = some t ∧ t.isHidden = false
  /-- The end is the last that it sees. -/
  getLast?_eq : s.visibleIndices.getLast? = some s.eof.index
  visibleCount_eq : s.visibleCount = s.visibleIndices.length
  /-- Whatever is looked for stands where its number says, among the tokens. -/
  nth_stands (i : Nat) : s.toList[s.indexOf i]? = some (s.nth i)
  nth_of_lt (i : Nat) :
    i < s.visibleCount → (s.toList.filter fun t => !t.isHidden)[i]? = some (s.nth i)
  nth_of_ge (i : Nat) : s.visibleCount ≤ i → s.nth i = s.eof

variable {s : TokenStream}

theorem index_eof (s : TokenStream) : s.eof.index = s.tokens.size := by rw [s.eof_eq]; rfl

theorem getElem?_toList_eof (s : TokenStream) : s.toList[s.eof.index]? = some s.eof := by
  rw [index_eof, toList, ← Array.length_toList, List.getElem?_concat_length]

/-- The parser sees the tokens that are not hidden, and the end is one of them. -/
theorem seen_eq_filter (s : TokenStream) : s.seen = s.toList.filter fun t => !t.isHidden := by
  have heof : s.eof.isHidden = false := by rw [Token.isHidden, s.kind_eof]; rfl
  rw [seen, toList, List.filter_append, s.visible_eq, Array.toList_filter,
    List.filter_cons_of_pos (by simp [heof])]
  rfl

/-- A token of a stream stands before the end, or is the end. -/
theorem toList_cases {i : Nat} {t : Token} (ht : s.toList[i]? = some t) :
    (i < s.tokens.size ∧ s.tokens[i]? = some t) ∨ (i = s.tokens.size ∧ t = s.eof) := by
  rw [toList, List.getElem?_append, Array.length_toList] at ht
  split at ht
  · exact .inl ⟨‹_›, by simpa using ht⟩
  · obtain ⟨hi, hget⟩ := List.getElem?_eq_some_iff.1 ht
    rw [List.length_singleton] at hi
    exact .inr ⟨by omega, by simpa using hget.symm⟩

theorem Numbered.index_toList (h : s.Numbered) {i : Nat} {t : Token} (ht : s.toList[i]? = some t) :
    t.index = i := by
  rcases toList_cases ht with ⟨-, ht⟩ | ⟨rfl, rfl⟩
  · exact h i t ht
  · exact s.index_eof

theorem Numbered.getElem?_toList_index (h : s.Numbered) {t : Token} (ht : t ∈ s.toList) :
    s.toList[t.index]? = some t := by
  obtain ⟨i, hi⟩ := List.mem_iff_getElem?.1 ht
  rw [h.index_toList hi, hi]

theorem kind_eq_eof_iff_last {i : Nat} {t : Token} (ht : s.toList[i]? = some t) :
    t.kind = .eof ↔ i + 1 = s.toList.length := by
  have hlength : s.toList.length = s.tokens.size + 1 := by simp [toList]
  rcases toList_cases ht with ⟨hi, ht⟩ | ⟨rfl, rfl⟩
  · have hkind : t.kind ≠ .eof := s.kind_tokens t (Array.mem_of_getElem? ht)
    exact ⟨fun he => absurd he hkind, fun hl => by omega⟩
  · exact ⟨fun _ => hlength.symm, fun _ => s.kind_eof⟩

theorem Numbered.pairwise_visibleIndices (h : s.Numbered) :
    s.visibleIndices.Pairwise (· < ·) := by
  have hall : s.toList.Pairwise fun t u => t.index < u.index := by
    rw [List.pairwise_iff_getElem]
    intro i j hi hj hij
    rw [h.index_toList (List.getElem?_eq_getElem hi), h.index_toList (List.getElem?_eq_getElem hj)]
    exact hij
  rw [visibleIndices, List.pairwise_map, seen_eq_filter]
  exact hall.sublist List.filter_sublist

theorem Numbered.mem_visibleIndices_iff (h : s.Numbered) (i : Nat) :
    i ∈ s.visibleIndices ↔ ∃ t, s.toList[i]? = some t ∧ t.isHidden = false := by
  rw [visibleIndices, seen_eq_filter, List.mem_map]
  constructor
  · rintro ⟨t, ht, rfl⟩
    obtain ⟨hmem, hhidden⟩ := List.mem_filter.1 ht
    exact ⟨t, h.getElem?_toList_index hmem, by simpa using hhidden⟩
  · rintro ⟨t, ht, hhidden⟩
    exact ⟨t, List.mem_filter.2 ⟨List.mem_of_getElem? ht, by simp [hhidden]⟩, h.index_toList ht⟩

theorem getLast?_visibleIndices (s : TokenStream) :
    s.visibleIndices.getLast? = some s.eof.index := by
  simp [visibleIndices, seen]

/-- Whatever the parser looks for, it finds it where the number says. -/
theorem Numbered.getElem?_indexOf (h : s.Numbered) (i : Nat) :
    s.toList[s.indexOf i]? = some (s.nth i) := by
  rcases Nat.lt_or_ge i s.seen.length with hi | hi
  · have hindex : s.indexOf i = (s.nth i).index := by
      rw [indexOf, visibleIndices, List.getElem?_map, List.getElem?_eq_getElem hi, getElem_seen]
      rfl
    have hmem : s.nth i ∈ s.toList := by
      have hseen : s.nth i ∈ s.seen := getElem_seen hi ▸ List.getElem_mem hi
      rw [seen_eq_filter] at hseen
      exact List.mem_of_mem_filter hseen
    rw [hindex, h.getElem?_toList_index hmem]
  · have hindex : s.indexOf i = s.eof.index := by
      rw [indexOf, List.getElem?_eq_none (by simpa [visibleIndices] using hi), Option.none_or,
        getLast?_visibleIndices, Option.getD_some]
    rw [length_seen, visibleCount] at hi
    rw [hindex, nth_of_le (by omega), getElem?_toList_eof]

theorem Numbered.coheres (h : s.Numbered) : s.Coheres where
  index_eq _ _ := h.index_toList
  kind_eq_eof_iff _ _ := kind_eq_eof_iff_last
  increasing := h.pairwise_visibleIndices
  mem_visibleIndices_iff := h.mem_visibleIndices_iff
  getLast?_eq := s.getLast?_visibleIndices
  visibleCount_eq := by rw [visibleIndices, List.length_map, length_seen]
  nth_stands := h.getElem?_indexOf
  nth_of_lt i hi := by
    rw [← length_seen] at hi
    rw [← seen_eq_filter, List.getElem?_eq_getElem hi, getElem_seen]
  nth_of_ge i hi := nth_of_le (Nat.le_of_succ_le hi)

end TokenStream

/-- The stream of a lexer, whatever text it reads, in any casing and from any place in it, has its
tokens numbered one by one, with the end as the last of them and nowhere else, and the parser sees
just the tokens that are not hidden. Without a listener that throws there is always a stream. With
one, there is none exactly when the text has something that is no token: when reading it counts
an error, or when its tokens are not the whole text. -/
theorem streams_cohere (l : Lexer) :
    (∀ s, TokenStream.ofLexer l = .ok s → s.Coheres) ∧
    (Listener.stopsAt l.listeners = false → ∃ s, TokenStream.ofLexer l = .ok s) ∧
    (Listener.stopsAt l.listeners = true →
      ((∃ e, TokenStream.ofLexer l = .error e) ↔
        l.errorCount < l.removeListeners.readAll.2.errorCount) ∧
      ∃ s, TokenStream.ofLexer l.removeListeners = .ok s ∧
        ((∃ e, TokenStream.ofLexer l = .error e) ↔ charsOf s.tokens.toList ≠ l.ahead)) := by
  refine ⟨fun s hs => ?_, fun hl => ?_, fun hl => ?_⟩
  · obtain ⟨ts, l', -, htokens, -⟩ := TokenStream.exists_lists_of_ok hs
    exact (TokenStream.numbered_of_eq htokens).coheres
  · obtain ⟨ts, l', s, -, hs, -⟩ := TokenStream.ofLexer_lexes hl
    exact ⟨s, hs⟩
  · obtain ⟨as, l', ha⟩ := l.exists_answers
    have hsilent := ha.withListeners []
    obtain ⟨us, l₁, hread, hlex⟩ := Lexer.readAll_lexes (l := l.removeListeners) rfl
    obtain ⟨ts, l₂, s, hlex', hs, htokens, -⟩ :=
      TokenStream.ofLexer_lexes (l := l.removeListeners) rfl
    obtain ⟨rfl, rfl⟩ := hsilent.lexes.unique hlex
    obtain ⟨rfl, rfl⟩ := hsilent.lexes.unique hlex'
    have hcount : l.removeListeners.readAll.2.errorCount =
        l.errorCount + (Answer.errors as).length := by
      rw [hread]
      exact ha.errorCount
    have hchars : charsOf s.tokens.toList = l.ahead ↔ Answer.errors as = [] := by
      rw [htokens, charsOf_numbered, ← List.length_eq_zero_iff, ← Nat.add_eq_left,
        ← ha.errorCount]
      exact hlex'.charsOf_eq_iff
    rw [TokenStream.fails_iff ha hl]
    refine ⟨?_, s, hs, not_congr hchars.symm⟩
    rw [hcount, Nat.lt_add_right_iff_pos, List.length_pos_iff]

/-- Blanks and a comment are hidden from the parser. A character that is no token makes a lexer
fail whose listeners throw. -/
theorem streams_cohere_hidden :
    (∃ s, TokenStream.ofLexer (.ofString .folded "  PUBLIC // c\n") = .ok s ∧ s.Coheres ∧
      s.visibleIndices = [1, 5] ∧ s.indexOf 99 = 5) ∧
    Listener.stopsAt [.counter, .throwing] = true ∧
    ∃ e, TokenStream.ofLexer { Lexer.ofString .exact "a # b" with
      listeners := [.counter, .throwing] } = .error e := by
  obtain ⟨s, hs, hindices⟩ : ∃ s, TokenStream.ofString .folded "  PUBLIC // c\n" = .ok s ∧
      s.visibleIndices = [1, 5] ∧ s.indexOf 99 = 5 := by decide +kernel
  let l : Lexer := { Lexer.ofString .exact "a # b" with listeners := [.counter, .throwing] }
  have hfails := ((streams_cohere l).2.2 rfl).1
  exact ⟨⟨s, hs, (streams_cohere _).1 s hs, hindices⟩, rfl, hfails.2 (by decide +kernel)⟩

end ApexSyntax
