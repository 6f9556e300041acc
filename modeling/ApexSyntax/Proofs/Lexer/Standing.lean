-- A token stands by itself. What it is and how far it reaches stays the same when the
-- text is cut behind it and goes on with a space: no form of a token goes past a space,
-- and none needs what it looks at behind its own end.
import ApexSyntax.Proofs.Lexer.Lexemes

namespace ApexSyntax

open Text

/-! ## Cuts -/

/-- The text ends here, or goes on with a space. -/
inductive Breaks : List Char → Prop
  | nothing : Breaks []
  | space (rest : List Char) : Breaks (' ' :: rest)

section

variable {p : Char → Bool} {more cs : List Char} {k n : Nat}

theorem drop_cut {j : Nat} (hj : j ≤ k) (hcs : j ≤ cs.length) :
    (cs.take k ++ more).drop j = (cs.drop j).take (k - j) ++ more := by
  rw [List.drop_append_of_le_length (by rw [List.length_take]; omega), List.drop_take]

/-- What has no space in it and starts a text that was cut, was there before. -/
theorem prefix_of_cut (h : Breaks more) {w : List Char} (hw : ' ' ∉ w)
    (hpre : w <+: cs.take k ++ more) : w <+: cs := by
  rcases List.prefix_or_prefix_of_prefix hpre (List.prefix_append _ _) with hin | ⟨u, rfl⟩
  · exact hin.trans (List.take_prefix k cs)
  · have hu : u = [] := by
      rw [List.prefix_append_right_inj] at hpre
      cases h with
      | nothing => exact List.prefix_nil.1 hpre
      | space rest =>
        rcases List.prefix_cons_iff.1 hpre with hu | ⟨u', rfl, _⟩
        · exact hu
        · exact absurd (List.mem_append_right _ List.mem_cons_self) hw
    rw [hu, List.append_nil]
    exact List.take_prefix k cs

theorem head?_of_cut (h : Breaks more) {d : Char} (hd : d ≠ ' ')
    (hhead : (cs.take k ++ more).head? = some d) : cs.head? = some d := by
  have hpre : [d] <+: cs.take k ++ more := by
    rw [List.head?_eq_some_iff] at hhead
    obtain ⟨rest, hrest⟩ := hhead
    exact ⟨rest, hrest.symm⟩
  obtain ⟨rest, hrest⟩ := prefix_of_cut h (by simpa using hd.symm) hpre
  rw [← hrest]
  rfl

/-! ## Spans -/

/-- A span that ends at a space stays the same when the text is cut behind it. -/
theorem spanLength_cut (h : Breaks more) (hp : p ' ' = false) (hk : spanLength p cs ≤ k) :
    spanLength p (cs.take k ++ more) = spanLength p cs := by
  have hmore : spanLength p more = 0 := by
    cases h with
    | nothing => rfl
    | space rest => simp [spanLength, hp]
  induction cs generalizing k with
  | nil => rw [List.take_nil, List.nil_append, hmore]; rfl
  | cons c cs ih =>
    by_cases hc : p c = true
    · rw [spanLength_cons hc] at hk ⊢
      obtain ⟨k, rfl⟩ := Nat.exists_eq_add_of_lt (Nat.zero_lt_of_lt hk)
      rw [Nat.zero_add, List.take_succ_cons, List.cons_append, spanLength_cons hc,
        ih (by omega)]
    · have hzero : ∀ ds, spanLength p (c :: ds) = 0 := by simp [spanLength, hc]
      cases k with
      | zero => rw [List.take_zero, List.nil_append, hmore, hzero]
      | succ k => rw [List.take_succ_cons, List.cons_append, hzero, hzero]

theorem spanLength_pos (hp : ∀ c, isDigit c = true → p c = true)
    (hd : startsWithDigit cs = true) : 0 < spanLength p cs := by
  cases cs with
  | nil => cases hd
  | cons c cs =>
    rw [spanLength_cons (hp c hd)]
    omega

theorem startsWithDigit_cut (h : Breaks more) (hk : startsWithDigit cs = true → 0 < k) :
    startsWithDigit (cs.take k ++ more) = startsWithDigit cs := by
  have hmore : startsWithDigit more = false := by cases h <;> rfl
  cases cs with
  | nil => rw [List.take_nil, List.nil_append, hmore]; rfl
  | cons c cs =>
    cases k with
    | zero =>
      rw [List.take_zero, List.nil_append, hmore, eq_comm, Bool.eq_false_iff]
      exact fun hd => absurd (hk hd) (Nat.lt_irrefl 0)
    | succ k => rfl

/-- A span that is only read where a digit stands. -/
theorem digitSpan_cut (h : Breaks more) (hp : p ' ' = false)
    (hdigit : ∀ c, isDigit c = true → p c = true)
    (hk : startsWithDigit cs = true → spanLength p cs ≤ k) :
    startsWithDigit (cs.take k ++ more) = startsWithDigit cs ∧
      (startsWithDigit cs = true → spanLength p (cs.take k ++ more) = spanLength p cs) :=
  ⟨startsWithDigit_cut h fun hd => Nat.lt_of_lt_of_le (spanLength_pos hdigit hd) (hk hd),
    fun hd => spanLength_cut h hp (hk hd)⟩

theorem not_isWordPart_space : isWordPart ' ' = false := by decide +kernel

theorem startsWithWordPart_of_breaks (h : Breaks more) : startsWithWordPart more = false := by
  cases h with
  | nothing => rfl
  | space rest => exact not_isWordPart_space

/-! ## Numbers and dates -/

theorem startsWithMonthAndDay_cut (h : Breaks more) (hk : startsWithMonthAndDay cs = true → 6 ≤ k) :
    startsWithMonthAndDay (cs.take k ++ more) = startsWithMonthAndDay cs := by
  rw [Bool.eq_iff_iff]
  constructor
  · intro hcut
    unfold startsWithMonthAndDay at hcut
    split at hcut
    · rename_i a b c d rest heq
      simp only [Bool.and_eq_true] at hcut
      obtain ⟨⟨⟨ha, hb⟩, hc⟩, hd⟩ := hcut
      have hspace : ∀ {e : Char}, isDigit e = true → ' ' ≠ e := by
        rintro e he rfl
        exact absurd he (by decide)
      have hpre : ['-', a, b, '-', c, d] <+: cs.take k ++ more := ⟨rest, heq.symm⟩
      obtain ⟨rest', rfl⟩ := prefix_of_cut h
        (by simp [hspace ha, hspace hb, hspace hc, hspace hd]) hpre
      simp [startsWithMonthAndDay, ha, hb, hc, hd]
    · cases hcut
  · intro hcs
    obtain ⟨k, rfl⟩ := Nat.exists_eq_add_of_le' (hk hcs)
    unfold startsWithMonthAndDay at hcs
    split at hcs
    · exact hcs
    · cases hcs

/-- A length is kept by a cut behind it if it is kept where its first character stands. -/
theorem length_cut {f : List Char → Nat} (hk : f cs ≤ k) (hmore : f more = 0) (hnil : f [] = 0)
    (hcons : ∀ c rest k, cs = c :: rest → f (c :: rest) ≤ k + 1 →
      f (c :: (rest.take k ++ more)) = f (c :: rest)) : f (cs.take k ++ more) = f cs := by
  cases cs with
  | nil => rw [List.take_nil, List.nil_append, hmore, hnil]
  | cons c rest =>
    cases k with
    | zero => rw [List.take_zero, List.nil_append, hmore, Nat.le_zero.1 hk]
    | succ k => exact hcons c rest k rfl hk

theorem zoneLength_cut (h : Breaks more) (hk : zoneLength cs ≤ k) :
    zoneLength (cs.take k ++ more) = zoneLength cs := by
  refine length_cut hk (by cases h <;> rfl) rfl fun c rest k _ hk => ?_
  by_cases hz : c = 'z'
  · subst hz
    rfl
  · have hzone : ∀ ds, zoneLength (c :: ds) =
        if (c = '+' ∨ c = '-') ∧ startsWithDigit ds then 1 + spanLength isOffsetPart ds
        else 0 := fun ds => by rw [zoneLength]; exact hz
    rw [hzone] at hk ⊢
    rw [hzone]
    by_cases hc : c = '+' ∨ c = '-'
    · simp only [hc, true_and] at hk ⊢
      obtain ⟨hd, hspan⟩ := digitSpan_cut (p := isOffsetPart) (k := k) h rfl
        (fun d hd => by simp [isOffsetPart, hd]) (fun hd => by rw [if_pos hd] at hk; omega)
      rw [hd]
      split
      · rename_i hd
        rw [hspan hd]
      · rfl
    · simp only [hc, false_and, if_false]

theorem timeLength_cut (h : Breaks more) (hk : timeLength cs ≤ k) :
    timeLength (cs.take k ++ more) = timeLength cs := by
  refine length_cut hk (by cases h <;> rfl) rfl fun c rest k _ hk => ?_
  by_cases ht : c = 't'
  · subst ht
    simp only [timeLength] at hk ⊢
    obtain ⟨hd, hspan⟩ := digitSpan_cut (p := isClockPart) (k := k) h rfl
      (fun d hd => by simp [isClockPart, hd]) (fun hd => by rw [if_pos hd] at hk; omega)
    rw [hd]
    split
    · rename_i hd
      rw [if_pos hd] at hk
      rw [hspan hd, drop_cut (by omega) (spanLength_le _ _), zoneLength_cut h (by omega)]
    · rfl
  · have htime : ∀ ds, timeLength (c :: ds) = 0 := fun ds => by rw [timeLength]; simpa using ht
    rw [htime, htime]

theorem fractionLength_cut (h : Breaks more) (hk : fractionLength cs ≤ k) :
    fractionLength (cs.take k ++ more) = fractionLength cs := by
  refine length_cut hk (by cases h <;> rfl) rfl fun c rest k _ hk => ?_
  by_cases hdot : c = '.'
  · subst hdot
    simp only [fractionLength] at hk ⊢
    obtain ⟨hd, hspan⟩ := digitSpan_cut (p := isDigit) (k := k) h rfl
      (fun d hd => hd) (fun hd => by rw [if_pos hd] at hk; omega)
    rw [hd]
    split
    · rename_i hd
      rw [hspan hd]
    · rfl
  · have hfraction : ∀ ds, fractionLength (c :: ds) = 0 := fun ds => by
      rw [fractionLength]; simpa using hdot
    rw [hfraction, hfraction]

/-- The letter behind a number is all of its suffix. -/
theorem startsWithSuffix_cut (h : Breaks more) {letter other : Char}
    (hs : startsWithSuffix other cs = true) :
    startsWithSuffix letter (cs.take 1 ++ more) = (other == letter) := by
  cases cs with
  | nil => cases hs
  | cons c rest =>
    simp only [startsWithSuffix, Bool.and_eq_true, beq_iff_eq] at hs
    obtain ⟨rfl, _⟩ := hs
    simp [startsWithSuffix, startsWithWordPart_of_breaks h]

theorem startsWithSuffix_of_breaks (h : Breaks more) {letter : Char} (hl : letter ≠ ' ') :
    startsWithSuffix letter more = false := by
  cases h with
  | nothing => rfl
  | space rest => simp [startsWithSuffix, hl.symm]

/-- What a number is depends on its digits, its fraction and what stands behind them. -/
theorem numberLexeme_eq {whole fraction : Nat} {tail rest : List Char}
    (hwhole : spanLength isDigit cs = whole) (htail : cs.drop whole = tail)
    (hfraction : fractionLength tail = fraction) (hrest : tail.drop fraction = rest) :
    numberLexeme cs =
      if whole = 4 ∧ startsWithMonthAndDay tail then (.date, 10 + timeLength (tail.drop 6))
      else if fraction = 0 ∧ startsWithSuffix 'l' rest then (.long, whole + fraction + 1)
      else if startsWithSuffix 'd' rest then (.number, whole + fraction + 1)
      else if fraction = 0 then (.integer, whole + fraction)
      else (.number, whole + fraction) := by
  subst hwhole htail hfraction hrest
  rfl

theorem numberLexeme_cut (h : Breaks more) (hn : (numberLexeme cs).2 = n) :
    numberLexeme (cs.take n ++ more) = numberLexeme cs := by
  generalize hwhole : spanLength isDigit cs = whole
  generalize htail : cs.drop whole = tail
  generalize hfraction : fractionLength tail = fraction
  generalize hrest : tail.drop fraction = rest
  have hlw := spanLength_le isDigit cs
  have hlf := fractionLength_le tail
  have heq := numberLexeme_eq hwhole htail hfraction hrest
  have htail' : ∀ k, (cs.take (whole + fraction + k) ++ more).drop whole =
      tail.take (fraction + k) ++ more := fun k => by
    rw [drop_cut (by omega) (by omega), htail, Nat.add_assoc, Nat.add_sub_cancel_left]
  have hrest' : ∀ k, (tail.take (fraction + k) ++ more).drop fraction = rest.take k ++ more :=
    fun k => by rw [drop_cut (by omega) (by omega), hrest, Nat.add_sub_cancel_left]
  have hcut := fun k => numberLexeme_eq (by rw [spanLength_cut h rfl (by omega), hwhole])
    (htail' k) (by rw [fractionLength_cut h (by omega), hfraction]) (hrest' k)
  subst hn
  split at heq
  · rename_i hdate
    have hlen := startsWithMonthAndDay_length hdate.2
    have hzero := fractionLength_of_startsWithMonthAndDay hdate.2
    have hk : 10 + timeLength (tail.drop 6) =
        whole + fraction + (6 + timeLength (tail.drop 6)) := by omega
    rw [heq]
    dsimp only
    rw [hk, hcut, startsWithMonthAndDay_cut h (fun _ => by omega), if_pos hdate,
      drop_cut (by omega) hlen, timeLength_cut h (by omega), hk]
  · rename_i hno
    have hkeep : ∀ k, ¬ (whole = 4 ∧ startsWithMonthAndDay (tail.take k ++ more) = true) := by
      rintro k ⟨hw, hd⟩
      rw [startsWithMonthAndDay_cut h fun hd' => absurd ⟨hw, hd'⟩ hno] at hd
      exact hno ⟨hw, hd⟩
    rw [heq]
    split
    · rename_i hlong
      rw [hcut 1, if_neg (hkeep _), startsWithSuffix_cut h hlong.2, if_pos ⟨hlong.1, rfl⟩]
    · split
      · rename_i hd
        rw [hcut 1, if_neg (hkeep _), startsWithSuffix_cut h hd, startsWithSuffix_cut h hd]
        simp
      · have hnone : ∀ letter, letter ≠ ' ' →
            startsWithSuffix letter (rest.take 0 ++ more) = false :=
          fun _ => startsWithSuffix_of_breaks h
        have hplain := hcut 0
        rw [if_neg (hkeep _), hnone 'l' (by decide), hnone 'd' (by decide)] at hplain
        simp only [Nat.add_zero, Bool.false_eq_true, and_false, if_false] at hplain
        split <;> simp_all

/-! ## Words -/

theorem startsWithRunAs_cut (h : Breaks more) (hs : startsWithRunAs cs = true) :
    startsWithRunAs (cs.take 6 ++ more) = true := by
  unfold startsWithRunAs at hs
  split at hs
  · simp [startsWithRunAs, startsWithWordPart_of_breaks h]
  · cases hs

theorem wordLexeme_cut (h : Breaks more) (hn : (wordLexeme cs).2 = n) :
    wordLexeme (cs.take n ++ more) = wordLexeme cs := by
  generalize hsize : spanLength isWordPart cs = size
  have hle := spanLength_le isWordPart cs
  have hcut : ∀ k, spanLength isWordPart (cs.take (size + k) ++ more) = size ∧
      (cs.take (size + k) ++ more).take size = cs.take size ∧
      (cs.take (size + k) ++ more).drop size = (cs.drop size).take k ++ more := by
    intro k
    refine ⟨?_, ?_, ?_⟩
    · rw [spanLength_cut h not_isWordPart_space (by omega), hsize]
    · rw [List.take_append_of_le_length (by rw [List.length_take]; omega), List.take_take,
        Nat.min_eq_left (by omega)]
    · rw [drop_cut (by omega) (by omega), Nat.add_sub_cancel_left]
  subst hn
  unfold wordLexeme
  simp only [hsize]
  split
  · rename_i hrun
    obtain ⟨hspan, htake, hdrop⟩ := hcut 6
    simp only [hspan, htake, hdrop, hrun.1, startsWithRunAs_cut h hrun.2, true_and, if_true]
  · rename_i hrun
    have hnone : startsWithRunAs more = false := by cases h <;> rfl
    obtain ⟨hspan, htake, hdrop⟩ := hcut 0
    rw [Nat.add_zero] at hspan htake hdrop
    split <;> rename_i hword <;> simp [hspan, htake, hdrop, hnone, hword]

/-! ## Marks -/

theorem markTable_noSpace : ∀ e ∈ markTable, ' ' ∉ e.1 := by
  decide +kernel

theorem markLexeme?_cut (h : Breaks more) {m : Mark} (hm : markLexeme? cs = some (m, n)) :
    markLexeme? (cs.take n ++ more) = some (m, n) := by
  rw [markLexeme?, Option.map_eq_some_iff] at hm ⊢
  obtain ⟨e, he, heq⟩ := hm
  cases heq
  refine ⟨e, ?_, rfl⟩
  rw [List.find?_eq_some_iff_append] at he ⊢
  obtain ⟨hpre, before, behind, htable, hbefore⟩ := he
  refine ⟨?_, before, behind, htable, fun e' he' => ?_⟩
  · obtain ⟨rest, rfl⟩ := List.isPrefixOf_iff_prefix.1 hpre
    rw [List.take_left, List.isPrefixOf_iff_prefix]
    exact List.prefix_append _ _
  · -- A longer mark would have a space in it, or it would have been there before the cut.
    have hmem : e' ∈ markTable := htable ▸ List.mem_append_left _ he'
    have hno := hbefore e' he'
    rw [Bool.not_eq_true', Bool.eq_false_iff, ne_eq, List.isPrefixOf_iff_prefix] at hno ⊢
    exact fun hcut => hno (prefix_of_cut h (markTable_noSpace e' hmem) hcut)

/-! ## Strings -/

theorem stringEnd_quote {c : Char} (hq : isQuote c = true) (rest : List Char) :
    stringEnd n (c :: rest) = .closed (n + 1) := by
  cases rest <;> rw [stringEnd, if_pos hq]

/-- A string is closed by what it takes, so nothing behind it plays a part. -/
theorem stringEnd_cut {m : Nat} (hm : stringEnd n cs = .closed m) (hk : m ≤ n + k) :
    stringEnd n (cs.take k ++ more) = .closed m := by
  fun_induction stringEnd n cs generalizing k with
  | case1 => cases hm
  | case2 n c hq =>
    cases hm
    obtain ⟨k, rfl⟩ : ∃ j, k = j + 1 := ⟨k - 1, by omega⟩
    exact stringEnd_quote hq _
  | case3 n c hq hl => cases hm
  | case4 n c hq hl => cases hm
  | case5 n c d rest hq =>
    cases hm
    obtain ⟨k, rfl⟩ : ∃ j, k = j + 1 := ⟨k - 1, by omega⟩
    exact stringEnd_quote hq _
  | case6 n c d rest hq hl => cases hm
  | case7 n d rest hl hq => cases hm
  | case8 n d rest hl hq _ ih =>
    have hlt := stringEnd_bounds hm
    obtain ⟨k, rfl⟩ : ∃ j, k = j + 2 := ⟨k - 2, by omega⟩
    simp only [List.take_succ_cons, List.cons_append]
    rw [stringEnd, if_neg (by decide), if_neg (by decide), if_pos rfl, if_neg hl]
    exact ih hm (by omega)
  | case9 n c d rest hq hl hb ih =>
    have hlt := stringEnd_bounds hm
    obtain ⟨k, rfl⟩ : ∃ j, k = j + 2 := ⟨k - 2, by omega⟩
    simp only [List.take_succ_cons, List.cons_append]
    rw [stringEnd, if_neg hq, if_neg hl, if_neg hb]
    exact ih (k := k + 1) hm (by omega)

end

/-! ## Lexemes -/

namespace Lexeme

variable {c : Char} {rest more : List Char} {kind : Kind} {n : Nat}

/-- Nothing that is seen starts with a blank. -/
theorem isBlank_of_scan (hs : scan c rest = token kind n) (hk : kind.isHidden = false) :
    isBlank c = false := by
  cases hb : isBlank c with
  | false => rfl
  | true =>
    rw [scan, if_pos hb] at hs
    cases hs
    cases hk

/-- A token that is seen is read again when its text is cut behind it. -/
theorem scan_cut (h : Breaks more) (hs : scan c rest = token kind n)
    (hk : kind.isHidden = false) : scan c (rest.take (n - 1) ++ more) = token kind n := by
  have hblank := isBlank_of_scan hs hk
  have hb := scan_bounds c rest
  rw [hs] at hb
  simp only [size] at hb
  have hcons : c :: (rest.take (n - 1) ++ more) = (c :: rest).take n ++ more := by
    obtain ⟨k, rfl⟩ : ∃ j, n = j + 1 := ⟨n - 1, by omega⟩
    rfl
  have hslash : ¬ (c = '/' ∧ rest.head? = some '/') := by
    intro hc
    rw [scan, if_neg (by simp [hblank]), if_pos hc] at hs
    cases hs
    cases hk
  have hstar : ¬ (c = '/' ∧ rest.head? = some '*') := by
    intro hc
    rw [scan, if_neg (by simp [hblank]), if_neg hslash, if_pos hc] at hs
    split at hs <;> cases hs
    cases hk
  have hslash' : ¬ (c = '/' ∧ (rest.take (n - 1) ++ more).head? = some '/') :=
    fun hc => hslash ⟨hc.1, head?_of_cut h (by decide) hc.2⟩
  have hstar' : ¬ (c = '/' ∧ (rest.take (n - 1) ++ more).head? = some '*') :=
    fun hc => hstar ⟨hc.1, head?_of_cut h (by decide) hc.2⟩
  rw [scan, if_neg (by simp [hblank]), if_neg hslash, if_neg hstar] at hs
  rw [scan, if_neg (by simp [hblank]), if_neg hslash', if_neg hstar']
  split at hs
  · rename_i hq
    rw [if_pos hq]
    split at hs
    · rename_i m hm
      cases hs
      rw [stringEnd_cut hm (by omega)]
    · cases hs
  · rename_i hq
    rw [if_neg hq]
    split at hs
    · rename_i hd
      generalize hn : numberLexeme (c :: rest) = r at hs
      obtain ⟨form, m⟩ := r
      cases hs
      have hlexeme := numberLexeme_cut h (congrArg Prod.snd hn)
      have hd' : isDigit c = true ∨
          (c = '.' ∧ startsWithDigit (rest.take (n - 1) ++ more) = true) := by
        refine hd.imp_right fun ⟨hdot, hdigit⟩ => ⟨hdot, ?_⟩
        have hle := le_numberLexeme (c :: rest)
        have hpos := spanLength_pos (fun _ hp => hp) hdigit
        subst hdot
        rw [hn, show spanLength isDigit ('.' :: rest) = 0 from rfl, List.drop_zero,
          fractionLength, if_pos hdigit] at hle
        rw [startsWithDigit_cut h fun _ => by omega]
        exact hdigit
      rw [if_pos hd', hcons, hlexeme, hn]
    · rename_i hd
      have hd' : ¬ (isDigit c = true ∨
          (c = '.' ∧ startsWithDigit (rest.take (n - 1) ++ more) = true)) := by
        rintro (hdigit | ⟨hdot, hdigit⟩)
        · exact hd (.inl hdigit)
        · rw [startsWithDigit_cut h fun hrest => absurd (.inr ⟨hdot, hrest⟩) hd] at hdigit
          exact hd (.inr ⟨hdot, hdigit⟩)
      rw [if_neg hd']
      split at hs
      · rename_i hw
        generalize hn : wordLexeme (c :: rest) = r at hs
        obtain ⟨kind', m⟩ := r
        cases hs
        rw [if_pos hw, hcons, wordLexeme_cut h (congrArg Prod.snd hn), hn]
      · rename_i hw
        rw [if_neg hw]
        split at hs
        · rename_i m k hm
          cases hs
          rw [hcons, markLexeme?_cut h hm]
        · cases hs

end Lexeme

end ApexSyntax
