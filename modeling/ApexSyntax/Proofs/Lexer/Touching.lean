-- Tokens that touch. The numbers of two tokens that the parser sees follow one another
-- exactly when no token stands between them, that is when all characters between them
-- were lost to errors. Only when none is lost there does touching mean that the second
-- token starts right behind the first.
import ApexSyntax.Grammar.Lookahead
import ApexSyntax.Proofs.Lexer.Intervals

namespace ApexSyntax

/-! ## Numbers of tokens -/

theorem getElem?_numbered (k : Nat) (ts : List Token) (i : Nat) :
    (numbered k ts)[i]? = ts[i]?.map fun t => { t with index := k + i } := by
  induction ts generalizing k i with
  | nil => rfl
  | cons t ts ih =>
    cases i with
    | zero => rfl
    | succ i => simp [numbered, ih, Nat.add_comm, Nat.add_left_comm]

namespace TokenStream

/-- Every token has its place in the stream as its number. -/
def Numbered (s : TokenStream) : Prop :=
  ∀ (i : Nat) (t : Token), s.tokens[i]? = some t → t.index = i

variable {s : TokenStream} {i j : Nat}

theorem numbered_of_eq {ts : List Token} (h : s.tokens = (ApexSyntax.numbered 0 ts).toArray) :
    s.Numbered := by
  intro i t ht
  rw [h, List.getElem?_toArray, getElem?_numbered, Option.map_eq_some_iff] at ht
  obtain ⟨u, _, rfl⟩ := ht
  exact Nat.zero_add i

/-- A token that the parser sees stands where its number says. -/
theorem Numbered.getElem?_index (h : s.Numbered) (hi : i < s.visible.size) :
    s.tokens[(s.nth i).index]? = some (s.nth i) := by
  obtain ⟨k, hk⟩ := Array.getElem?_of_mem (nth_mem hi)
  rw [h k _ hk, hk]

/-- The parser sees tokens in the order of their numbers. -/
theorem Numbered.index_lt (h : s.Numbered) (hij : i < j) (hj : j < s.visible.size) :
    (s.nth i).index < (s.nth j).index := by
  have hall : s.tokens.toList.Pairwise fun a b => a.index < b.index := by
    rw [List.pairwise_iff_getElem]
    intro i j hi hj hij
    rw [h i _ (by simp), h j _ (by simp)]
    exact hij
  have hseen : s.visible.toList.Pairwise fun a b => a.index < b.index := by
    rw [s.visible_eq, Array.toList_filter]
    exact hall.sublist List.filter_sublist
  rw [List.pairwise_iff_getElem] at hseen
  have hnth : ∀ k (hk : k < s.visible.size), s.nth k = s.visible.toList[k] := by
    intro k hk
    simp [nth, Array.getD, hk]
  rw [hnth i (by omega), hnth j hj]
  exact hseen i j (by simp; omega) (by simp; omega) hij

end TokenStream

/-! ## What stands between two tokens -/

theorem Loss.not_takes {loss : Loss} (h : loss.count = 0) (j : Nat) : ¬ loss.Takes j := by
  obtain ⟨characters, comment⟩ := loss
  simp only [count, Nat.add_eq_zero_iff, List.length_eq_zero_iff, Option.toList_eq_nil_iff] at h
  simp [Takes, h]

namespace Token

/-- A character stands between two tokens. -/
def Parts (a b : Token) (j : Nat) : Prop := a.stop < j ∧ (j : Int) < b.start

/-- Nothing stands between two tokens but what is lost. -/
def Meets (loss : Loss) (a b : Token) : Prop :=
  a.stop < b.start ∧ ∀ j, Parts a b j → loss.Takes j

/-- The second token starts right behind the first. -/
def Adjoins (a b : Token) : Prop := (b.start : Int) = a.stop + 1

instance (a b : Token) : Decidable (a.Adjoins b) :=
  inferInstanceAs (Decidable ((b.start : Int) = a.stop + 1))

variable {loss : Loss} {a b : Token}

/-- Where nothing is lost, tokens that meet adjoin, and only those. -/
theorem adjoins_iff_meets :
    a.Adjoins b ↔ a.Meets loss b ∧ ∀ j, Parts a b j → ¬ loss.Takes j := by
  unfold Adjoins Meets Parts
  constructor
  · intro h
    exact ⟨⟨by omega, fun j hj => by omega⟩, fun j hj => by omega⟩
  · rintro ⟨⟨hlt, hlost⟩, hkept⟩
    have hstop : -1 ≤ a.stop := by
      unfold stop
      omega
    obtain ⟨j, hj⟩ : ∃ j : Nat, (j : Int) = a.stop + 1 := ⟨(a.stop + 1).toNat, by omega⟩
    by_cases hb : (j : Int) < b.start
    · exact absurd (hlost j ⟨by omega, hb⟩) (hkept j ⟨by omega, hb⟩)
    · omega

end Token

/-- The first and the last character of a token. -/
def Token.span (t : Token) : Nat × Int := (t.start, t.stop)

/-- Only where tokens start and stop counts. -/
theorem Tiled.of_spans {shown : List Char} {i : Nat} {ts us : List Token} {loss : Loss}
    (h : Tiled shown i ts loss) (hs : us.map Token.span = ts.map Token.span) :
    Tiled shown i us loss where
  tokens := by
    have hall : ∀ x ∈ us.map Token.span, i ≤ x.1 ∧ x.1 ≤ x.2 ∧ x.2 < shown.length := by
      rw [hs]
      exact List.forall_mem_map.2 h.tokens
    exact List.forall_mem_map.1 hall
  separated := by
    have hsep : (us.map Token.span).Pairwise fun x y => x.2 < y.1 := by
      rw [hs]
      exact List.pairwise_map.2 h.separated
    exact List.pairwise_map.1 hsep
  characters := h.characters
  sorted := h.sorted
  comment := h.comment
  covers := by
    intro j hij hj
    have hcovered : ∀ vs : List Token, (∃ t ∈ vs, t.start ≤ j ∧ j ≤ t.stop) ↔
        ∃ x ∈ vs.map Token.span, x.1 ≤ j ∧ j ≤ x.2 := by
      simp [Token.span]
    rw [hcovered, hs, ← hcovered]
    exact h.covers j hij hj

/-! ## Texts -/

namespace TokenStream

variable {s : TokenStream} {shown : List Char} {loss : Loss} {i j : Nat}

theorem start_le_stop (h : Tiled shown 0 s.tokens.toList loss) {a : Token} {k : Nat}
    (ha : s.tokens[k]? = some a) : (a.start : Int) ≤ a.stop :=
  (h.tokens a (Array.mem_toList_iff.2 (Array.mem_of_getElem? ha))).2.1

theorem stop_lt_start (h : Tiled shown 0 s.tokens.toList loss) {a b : Token} {k l : Nat}
    (ha : s.tokens[k]? = some a) (hb : s.tokens[l]? = some b) (hkl : k < l) : a.stop < b.start := by
  obtain ⟨hk, rfl⟩ := Array.getElem?_eq_some_iff.1 ha
  obtain ⟨hl, rfl⟩ := Array.getElem?_eq_some_iff.1 hb
  exact List.pairwise_iff_getElem.1 h.separated k l (by simpa using hk) (by simpa using hl) hkl

theorem span_le_span (h : Tiled shown 0 s.tokens.toList loss) {a b : Token} {k l : Nat}
    (ha : s.tokens[k]? = some a) (hb : s.tokens[l]? = some b) (hkl : k ≤ l) :
    a.start ≤ b.start ∧ a.stop ≤ b.stop := by
  rcases Nat.lt_or_eq_of_le hkl with hlt | rfl
  · have := stop_lt_start h ha hb hlt
    have := start_le_stop h ha
    have := start_le_stop h hb
    omega
  · rw [ha, Option.some.injEq] at hb
    subst hb
    exact ⟨Nat.le_refl _, Int.le_refl _⟩

/-- Tokens further behind in the stream stand further behind in the text. -/
theorem stop_lt_start_iff (h : Tiled shown 0 s.tokens.toList loss) {a b : Token} {k l : Nat}
    (ha : s.tokens[k]? = some a) (hb : s.tokens[l]? = some b) : a.stop < b.start ↔ k < l := by
  refine ⟨fun hlt => ?_, stop_lt_start h ha hb⟩
  have hstart := start_le_stop h ha
  by_contra hkl
  have := (span_le_span h hb ha (Nat.le_of_not_lt hkl)).1
  omega

/-- Numbers follow one another where no token stands between. -/
theorem succ_iff_no_token (hn : s.Numbered) (h : Tiled shown 0 s.tokens.toList loss)
    (hij : i < j) (hj : j < s.visible.size) :
    (s.nth j).index = (s.nth i).index + 1 ↔
      ∀ t ∈ s.tokens, ¬ ((s.nth i).stop < t.start ∧ t.stop < (s.nth j).start) := by
  have ha := hn.getElem?_index (Nat.lt_trans hij hj)
  have hb := hn.getElem?_index hj
  have hlt := hn.index_lt hij hj
  constructor
  · rintro hsucc t ht ⟨hat, htb⟩
    obtain ⟨k, hk⟩ := Array.getElem?_of_mem ht
    rw [stop_lt_start_iff h ha hk] at hat
    rw [stop_lt_start_iff h hk hb] at htb
    omega
  · intro hnone
    obtain ⟨hsize, _⟩ := Array.getElem?_eq_some_iff.1 hb
    by_contra hne
    have hc : s.tokens[(s.nth i).index + 1]? = some s.tokens[(s.nth i).index + 1] :=
      Array.getElem?_eq_getElem (by omega)
    refine hnone _ (Array.mem_of_getElem? hc) ⟨?_, ?_⟩
    · rw [stop_lt_start_iff h ha hc]
      omega
    · rw [stop_lt_start_iff h hc hb]
      omega

/-- No token stands between two others where all characters between them are lost. -/
theorem no_token_iff_meets (hn : s.Numbered) (h : Tiled shown 0 s.tokens.toList loss)
    (hij : i < j) (hj : j < s.visible.size) :
    (∀ t ∈ s.tokens, ¬ ((s.nth i).stop < t.start ∧ t.stop < (s.nth j).start)) ↔
      (s.nth i).Meets loss (s.nth j) := by
  have ha := hn.getElem?_index (Nat.lt_trans hij hj)
  have hb := hn.getElem?_index hj
  have hbl := (h.tokens _ (Array.mem_toList_iff.2 (Array.mem_of_getElem? hb))).2
  have hab := stop_lt_start h ha hb (hn.index_lt hij hj)
  constructor
  · refine fun hnone => ⟨hab, fun k ⟨hk, hk'⟩ => ?_⟩
    by_contra hkept
    obtain ⟨t, ht, hts, hte⟩ := (h.covers k (Nat.zero_le k) (by omega)).2 hkept
    obtain ⟨l, hl⟩ := Array.getElem?_of_mem (Array.mem_toList_iff.1 ht)
    refine hnone t (Array.mem_toList_iff.1 ht) ⟨?_, ?_⟩
    · rw [stop_lt_start_iff h ha hl]
      by_contra hle
      have := (span_le_span h hl ha (Nat.le_of_not_lt hle)).2
      omega
    · rw [stop_lt_start_iff h hl hb]
      by_contra hle
      have := (span_le_span h hb hl (Nat.le_of_not_lt hle)).1
      omega
  · rintro ⟨_, hlost⟩ t ht ⟨hat, htb⟩
    have htl := h.tokens t (by simpa using ht)
    refine (h.covers t.start (Nat.zero_le _) (by omega)).1 ⟨t, by simpa using ht, ?_, ?_⟩
      (hlost t.start ⟨hat, by omega⟩)
    · exact Nat.le_refl _
    · exact htl.2.1

/-- The stream of a text: its tokens are numbered, and share the characters with what is
lost, one loss for each error. -/
theorem exists_tiled (casing : Text.Casing) (text : String) :
    ∃ s loss, ofString casing text = .ok s ∧ s.Numbered ∧
      Tiled (text.toList.map casing.show) 0 s.tokens.toList loss ∧
      (Lexer.ofString casing text).readAll.2.errorCount = loss.count := by
  have hl : Listener.stopsAt (Lexer.ofString casing text).listeners = false := rfl
  obtain ⟨ts, l', s, hlex, hs, htokens, _⟩ := ofLexer_lexes hl
  obtain ⟨us, l'', hread, hlex'⟩ := Lexer.readAll_lexes hl
  obtain ⟨_, rfl⟩ := hlex.unique hlex'
  obtain ⟨loss, htiled, hcount⟩ := hlex.tiled
  refine ⟨s, loss, hs, numbered_of_eq htokens, ?_, ?_⟩
  · rw [htokens]
    exact htiled.of_spans (map_numbered (fun _ _ => rfl) 0 ts)
  · rw [hread, hcount]
    exact Nat.zero_add _

end TokenStream

/-- Two tokens touch where all characters between them are lost. -/
theorem Lookahead.touches_iff_meets {v : Lookahead} {n : Nat} {shown : List Char} {loss : Loss}
    (hn : v.stream.Numbered) (h : Tiled shown 0 v.stream.tokens.toList loss)
    (hv : v.position + n + 1 < v.stream.visible.size) :
    v.touches n = true ↔ (v.nth n).Meets loss (v.nth (n + 1)) := by
  rw [touches, beq_iff_eq]
  exact (TokenStream.succ_iff_no_token hn h (Nat.lt_succ_self _) hv).trans
    (TokenStream.no_token_iff_meets hn h (Nat.lt_succ_self _) hv)

end ApexSyntax
