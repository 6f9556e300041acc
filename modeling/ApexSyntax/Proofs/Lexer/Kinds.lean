-- What the kind of a token tells of its word and its text. Names and keywords have a
-- word, which is their text as it is shown. Keywords and marks are spelled as messages
-- show them, and where a mark was read, no longer mark stands. All this holds of every
-- token that a call gives, whoever listens to the errors before it.
import ApexSyntax.Proofs.Folding.Texts
import ApexSyntax.Proofs.Lexer.Intervals
import ApexSyntax.Proofs.Lexer.Spacing

namespace ApexSyntax

open Text

/-! ## Characters without a case -/

namespace Text

theorem isAlpha_foldChar_capital (i : Fin 26) :
    (foldChar (Char.ofNat (65 + i))).isAlpha = true := by
  revert i
  decide

/-- What is no letter is shown as it is, and nothing else is shown like it. -/
theorem Casing.show_eq_iff (casing : Casing) {c d : Char} (hd : d.isAlpha = false) :
    casing.show c = d ↔ c = d := by
  cases casing with
  | exact => exact Iff.rfl
  | folded =>
    by_cases hc : 'A' ≤ c ∧ c ≤ 'Z'
    · obtain ⟨i, rfl⟩ := exists_of_isCapital hc
      have hfold := isAlpha_foldChar_capital i
      constructor
      · rintro rfl
        exact absurd (hfold.symm.trans hd) (by decide)
      · rintro rfl
        have hcapital : (Char.ofNat (65 + i)).isAlpha = true := by
          revert i
          decide
        exact absurd (hcapital.symm.trans hd) (by decide)
    · rw [Casing.show, foldChar_of_not_capital hc]

theorem Casing.map_show_eq_iff (casing : Casing) {cs ds : List Char}
    (hds : ∀ d ∈ ds, d.isAlpha = false) : cs.map casing.show = ds ↔ cs = ds := by
  induction ds generalizing cs with
  | nil => exact List.map_eq_nil_iff
  | cons d ds ih =>
    cases cs with
    | nil => simp
    | cons c cs =>
      rw [List.map_cons, List.cons.injEq, List.cons.injEq,
        casing.show_eq_iff (hds d List.mem_cons_self),
        ih fun e he => hds e (List.mem_cons_of_mem d he)]

end Text

/-! ## Words -/

theorem Kind.isWord_iff (kind : Kind) :
    kind.isWord = true ↔ kind = .identifier ∨ kind.isKeyword = true := by
  cases kind <;> simp [isWord, isKeyword]

theorem Keyword.word_ne_of_ofWord? {word : String} (h : ofWord? word = none)
    (hdot : '.' ∉ word.toList) (k : Keyword) : k.word ≠ word := by
  rintro rfl
  rw [ofWord?, List.find?_eq_none] at h
  have hk := h k k.mem_all
  by_cases hrun : k = .systemRunAsKw
  · subst hrun
    exact hdot (by decide)
  · exact hk (by simp [hrun])

/-- A keyword is read where it is spelled. -/
theorem word_of_wordLexeme {cs : List Char} {k : Keyword} {n : Nat}
    (h : wordLexeme cs = (.keyword k, n)) : k.word = String.ofList (cs.take n) := by
  unfold wordLexeme at h
  dsimp only at h
  split at h
  · -- The two words and the dot between them are taken together.
    rename_i hrun
    obtain ⟨rfl, rfl⟩ : k = .systemRunAsKw ∧ spanLength isWordPart cs + 6 = n := by
      simpa [eq_comm] using h
    have hdrop : (cs.drop (spanLength isWordPart cs)).take 6 = ".runas".toList := by
      have hstart := hrun.2
      unfold startsWithRunAs at hstart
      split at hstart
      · rename_i heq
        rw [heq]
        rfl
      · cases hstart
    rw [List.take_add, hdrop, String.ofList_append, hrun.1]
    decide
  · split at h
    · rename_i k' hk
      cases h
      exact Keyword.word_of_ofWord? hk
    · cases h

theorem word_ne_of_wordLexeme {cs : List Char} {n : Nat}
    (h : wordLexeme cs = (.identifier, n)) (k : Keyword) :
    k.word ≠ String.ofList (cs.take n) := by
  unfold wordLexeme at h
  dsimp only at h
  split at h
  · cases h
  · split at h
    · cases h
    · rename_i hnone
      cases h
      refine Keyword.word_ne_of_ofWord? hnone ?_ k
      rw [String.toList_ofList, take_spanLength]
      intro hdot
      exact absurd (List.all_eq_true.1 List.all_takeWhile '.' hdot) (by decide)

/-! ## Marks -/

namespace Mark

theorem not_isAlpha_spelling (m : Mark) : ∀ c ∈ m.spelling.toList, c.isAlpha = false := by
  have hall : ∀ m ∈ all, m.spelling.toList.all (!·.isAlpha) = true := by decide +kernel
  simpa using hall m m.mem_all

theorem mem_markTable (m : Mark) : (m.spelling.toList, m) ∈ markTable := by
  have hall : ∀ m ∈ all, (m.spelling.toList, m) ∈ markTable := by decide +kernel
  exact hall m m.mem_all

end Mark

theorem spelling_of_mem_markTable : ∀ e ∈ markTable, e.1 = e.2.spelling.toList := by
  decide +kernel

/-- The longest marks come first. -/
theorem markTable_sorted : markTable.Pairwise fun e f => f.1.length ≤ e.1.length := by
  decide +kernel

/-- The mark that is read is there, and no mark that is there is longer. -/
theorem longest_of_markLexeme? {cs : List Char} {m : Mark} {n : Nat}
    (h : markLexeme? cs = some (m, n)) :
    cs.take n = m.spelling.toList ∧
      ∀ m' : Mark, m'.spelling.toList <+: cs → m'.spelling.length ≤ m.spelling.length := by
  rw [markLexeme?, Option.map_eq_some_iff] at h
  obtain ⟨⟨w, m₁⟩, hfind, heq⟩ := h
  obtain ⟨rfl, rfl⟩ : m₁ = m ∧ w.length = n := by simpa using heq
  obtain rfl : w = m₁.spelling.toList :=
    spelling_of_mem_markTable _ (List.mem_of_find?_eq_some hfind)
  rw [List.find?_eq_some_iff_append] at hfind
  obtain ⟨hpre, before, behind, htable, hbefore⟩ := hfind
  refine ⟨(List.prefix_iff_eq_take.1 (List.isPrefixOf_iff_prefix.1 hpre)).symm,
    fun m' hm' => ?_⟩
  -- The table has no mark before this one that is there, and no longer one behind it.
  have hsorted := markTable_sorted
  have hmem := m'.mem_markTable
  rw [htable] at hsorted hmem
  rw [← String.length_toList, ← String.length_toList]
  rcases List.mem_append.1 hmem with hin | hin
  · have hno := hbefore _ hin
    rw [Bool.not_eq_true', Bool.eq_false_iff, ne_eq, List.isPrefixOf_iff_prefix] at hno
    exact absurd hm' hno
  · rcases List.mem_cons.1 hin with hself | hin
    · exact Nat.le_of_eq (congrArg (fun e => e.1.length) hself)
    · exact List.rel_of_pairwise_cons (List.pairwise_append.1 hsorted).2.1 hin

/-! ## What is read -/

namespace Lexeme

variable {c : Char} {rest : List Char} {kind : Kind} {n : Nat}

theorem wordLexeme_of_scan (hs : scan c rest = token kind n) (hk : kind.isWord = true) :
    wordLexeme (c :: rest) = (kind, n) := by
  unfold scan at hs
  grind [Kind.isWord]

theorem markLexeme?_of_scan {m : Mark} (hs : scan c rest = token (.mark m) n) :
    markLexeme? (c :: rest) = some (m, n) := by
  have hword := isWord_wordLexeme (c :: rest)
  unfold scan at hs
  grind [Kind.isWord]

end Lexeme

namespace Token

/-- What the kind of a token tells of its word and its text, over a text that is shown in
some casing. -/
structure Coherent (casing : Casing) (source : String) (t : Token) : Prop where
  /-- The token is the end, or its text stands where it starts. -/
  stands : t.kind = .eof ∨ t.text.toList <+: source.toList.drop t.start
  word_ne : t.word ≠ "" ↔ t.kind = .identifier ∨ t.kind.isKeyword = true
  word_eq : t.word ≠ "" → t.word = t.text.map casing.show
  keyword : t.kind.isKeyword = true → t.kind.display = "'" ++ t.word ++ "'"
  identifier (k : Keyword) : t.kind = .identifier → k.word ≠ t.word
  mark (m : Mark) : t.kind = .mark m → t.kind.display = "'" ++ t.text ++ "'"
  /-- No longer mark starts where a mark was read. -/
  longest (m m' : Mark) : t.kind = .mark m →
    m'.spelling.toList <+: source.toList.drop t.start → m'.spelling.length ≤ t.text.length
  hidden : t.isHidden = true ↔ t.kind = .blank ∨ t.kind = .comment

/-- The end of a text has nothing to tell. -/
theorem coherent_endOfText (casing : Casing) (source : String) (line column start index : Nat) :
    (endOfText line column start index).Coherent casing source where
  stands := .inl rfl
  word_ne := by simp [endOfText, Kind.isKeyword]
  word_eq := fun h => absurd rfl h
  keyword := fun h => by cases h
  identifier := fun _ h => by cases h
  mark := fun _ h => by cases h
  longest := fun _ _ h => by cases h
  hidden := by simp [isHidden, endOfText, Kind.isHidden]

end Token

namespace Lexer

variable {l l' : Lexer} {t : Token} {c : Char} {rest : List Char} {kind : Kind} {n : Nat}

/-- What is read at a place of a text tells what its kind tells. -/
theorem coherent_tokenOf {source : String}
    (hsource : l.reader.cursor.source = source.toList.toArray) (hr : l.reader.rest = c :: rest)
    (hs : Lexeme.scan c rest = .token kind n) :
    (l.tokenOf kind n).Coherent l.reader.casing source := by
  have hahead : l.ahead = source.toList.drop (l.tokenOf kind n).start := by
    rw [ahead, hsource]
    rfl
  have hrest : l.ahead.map l.reader.casing.show = c :: rest := by rw [← rest_eq_ahead, hr]
  have hshown := l.shown_tokenOf kind n
  rw [hr] at hshown
  have hword : kind.isWord = true → (l.tokenOf kind n).word = String.ofList ((c :: rest).take n) :=
    fun hk => by rw [tokenOf, if_pos hk, hr]
  have hnone : kind.isWord = false → (l.tokenOf kind n).word = "" :=
    fun hk => if_neg (Bool.eq_false_iff.1 hk)
  have hpos : (c :: rest).take n ≠ [] := by
    have hb := Lexeme.scan_bounds c rest
    rw [hs] at hb
    have hn : n ≠ 0 := Nat.ne_of_gt hb.1
    simpa using hn
  have hmark : ∀ m, kind = .mark m → (l.tokenOf kind n).text = m.spelling := by
    rintro m rfl
    have htake := (longest_of_markLexeme? (Lexeme.markLexeme?_of_scan hs)).1
    rw [htake, Casing.map_show_eq_iff _ m.not_isAlpha_spelling] at hshown
    exact String.toList_inj.1 hshown
  have hne : (l.tokenOf kind n).word ≠ "" ↔ kind.isWord = true := by
    refine ⟨fun h => ?_, fun hk => ?_⟩
    · by_contra hk
      exact h (hnone (Bool.eq_false_iff.2 hk))
    · rw [hword hk, ne_eq, ← String.toList_inj, String.toList_ofList]
      exact hpos
  exact {
    stands := .inr (by rw [text_tokenOf, hahead]; exact List.take_prefix _ _)
    word_ne := hne.trans kind.isWord_iff
    word_eq := fun h => by
      rw [hword (hne.1 h), ← String.toList_inj, String.toList_ofList, String.toList_map, hshown]
    keyword := fun hk => by
      obtain ⟨k, rfl⟩ : ∃ k, kind = .keyword k := by
        cases kind <;> first | exact ⟨_, rfl⟩ | cases hk
      rw [hword rfl, ← word_of_wordLexeme (Lexeme.wordLexeme_of_scan hs rfl)]
      rfl
    identifier := fun k hk => by
      obtain rfl : kind = .identifier := hk
      rw [hword rfl]
      exact word_ne_of_wordLexeme (Lexeme.wordLexeme_of_scan hs rfl) k
    mark := fun m hm => by
      rw [hmark m hm]
      exact congrArg Kind.display hm
    longest := fun m m' hm hm' => by
      rw [hmark m hm]
      obtain rfl : kind = .mark m := hm
      refine (longest_of_markLexeme? (Lexeme.markLexeme?_of_scan hs)).2 m' ?_
      rw [← hahead] at hm'
      have hpre := hm'.map l.reader.casing.show
      rwa [hrest, (Casing.map_show_eq_iff _ m'.not_isAlpha_spelling).2 rfl] at hpre
    hidden := by cases kind <;> simp [Token.isHidden, tokenOf, Kind.isHidden] }

/-! ## Calls -/

/-- A lexer reads a text, shown in some casing. -/
def Reads (casing : Casing) (source : String) (l : Lexer) : Prop :=
  l.reader.casing = casing ∧ l.reader.cursor.source = source.toList.toArray

variable {casing : Casing} {source : String}

/-- A call goes on reading the text, and what it gives tells what its kind tells. -/
theorem Reads.nextWithin (h : l.Reads casing source) (n : Nat) :
    (l.nextWithin n).1.Reads casing source ∧
      ∀ t, (l.nextWithin n).2 = .ok t → t.Coherent casing source := by
  induction n generalizing l with
  | zero =>
    refine ⟨h, fun t ht => ?_⟩
    cases ht
    exact Token.coherent_endOfText ..
  | succ n ih =>
    unfold Lexer.nextWithin
    split
    · refine ⟨h, fun t ht => ?_⟩
      cases ht
      exact Token.coherent_endOfText ..
    · rename_i c rest hr
      split
      · rename_i kind k hs
        refine ⟨h, fun t ht => ?_⟩
        cases ht
        rw [← h.1]
        exact coherent_tokenOf h.2 hr hs
      · split
        · exact ⟨h, fun t ht => by cases ht⟩
        · exact ih h

theorem Reads.afterCalls (h : l.Reads casing source) (n : Nat) :
    (l.afterCalls n).Reads casing source := by
  induction n generalizing l with
  | zero => exact h
  | succ n ih => exact ih (h.nextWithin _).1

end Lexer

/-- Kind, word and text of every token agree, whatever the text is, however it is shown and
whoever listens. -/
theorem coherent_of_nthCall (casing : Casing) (source : String) (ls : List Listener) (n : Nat)
    {t : Token}
    (h : ({ Lexer.ofString casing source with listeners := ls } : Lexer).nthCall n = .ok t) :
    t.Coherent casing source := by
  have hreads : Lexer.Reads casing source
      { Lexer.ofString casing source with listeners := ls } := ⟨rfl, rfl⟩
  exact ((hreads.afterCalls n).nextWithin _).2 t h

/-- The keyword of two words behind an error that is thrown. -/
theorem coherent_systemRunAs :
    ∃ t, ({ Lexer.ofString .folded "#System.RunAs>>>=1" with listeners := [.throwing] } :
        Lexer).nthCall 1 = .ok t ∧
      t.kind = .keyword .systemRunAsKw ∧ t.Coherent .folded "#System.RunAs>>>=1" := by
  obtain ⟨t, ht, hkind⟩ : ∃ t, ({ Lexer.ofString .folded "#System.RunAs>>>=1" with
      listeners := [.throwing] } : Lexer).nthCall 1 = .ok t ∧ t.kind = .keyword .systemRunAsKw := by
    refine ⟨_, rfl, ?_⟩
    decide +kernel
  exact ⟨t, ht, hkind, coherent_of_nthCall .folded _ [.throwing] 1 ht⟩

end ApexSyntax
