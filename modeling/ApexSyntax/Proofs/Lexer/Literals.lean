-- Literals by their lexical grammar. A text is one literal of some form, and nothing else,
-- exactly when it belongs to the language of the form: every literal of the grammar is
-- read as a whole, and nothing else is read as one.
import ApexSyntax.Proofs.Lexer.Languages
import ApexSyntax.Proofs.Lexer.Standing
import ApexSyntax.Proofs.Lexer.Tiling

namespace ApexSyntax

open Text Computability

/-! ## Texts of one token -/

/-- The characters are read as one token. -/
def Lexeme.ReadsAll (kind : Kind) (cs : List Char) : Prop :=
  ∃ c rest, cs = c :: rest ∧ scan c rest = .token kind cs.length

namespace Lexer

/-- The calls for a text give a single token of some kind and then the end, and no error. -/
def IsToken (casing : Casing) (text : String) (kind : Kind) : Prop :=
  (ofString casing text).readAll.1.map Token.kind = [kind, .eof] ∧
    (ofString casing text).readAll.2.errorCount = 0

instance (casing : Casing) (text : String) (kind : Kind) : Decidable (IsToken casing text kind) :=
  inferInstanceAs (Decidable (_ ∧ _))

end Lexer

/-- Of a single token that is read without an error, nothing is left. -/
theorem Lexes.readsAll {l l' : Lexer} {t : Token} (h : Lexes l [t] l')
    (he : l'.errorCount = l.errorCount) : Lexeme.ReadsAll t.kind l.reader.rest := by
  have hall := h.covers.all he
  have hle := h.covers.errorCount_le
  cases h with
  | @token _ _ _ c rest kind n hr hs hrest =>
    have htake : l.ahead.take n = l.ahead := by
      rw [← Lexer.text_tokenOf l kind n, ← hall]
      simp [charsOf]
    have hlen : l.ahead.length ≤ n := by
      rw [← htake, List.length_take]
      exact Nat.min_le_left ..
    have hb := Lexeme.scan_bounds c rest
    rw [hs] at hb
    simp only [Lexeme.size] at hb
    rw [Lexer.length_ahead, hr, List.length_cons] at hlen
    refine ⟨c, rest, hr, ?_⟩
    rw [hr, hs, List.length_cons, Nat.le_antisymm hb.2 hlen]
    rfl
  | @unreadable _ _ _ c rest shown skipped hr hs hrest =>
    have hcount := hrest.covers.errorCount_le
    have hone : ((l.skip skipped).report (l.unreadableError shown)).errorCount =
        l.errorCount + 1 := rfl
    omega

/-- A text is one token when its characters are, as they are shown. -/
theorem Lexer.isToken_iff {casing : Casing} {text : String} {kind : Kind} :
    IsToken casing text kind ↔ Lexeme.ReadsAll kind (text.toList.map casing.show) := by
  have hrest : (ofString casing text).reader.rest = text.toList.map casing.show := rfl
  obtain ⟨ts, l', hread, hlex⟩ := readAll_lexes (l := ofString casing text) rfl
  rw [IsToken, hread, ← hrest]
  dsimp only
  constructor
  · rintro ⟨hkinds, he⟩
    rw [List.map_append] at hkinds
    obtain ⟨t, rfl⟩ : ∃ t, ts = [t] := by
      rw [← List.length_eq_one_iff]
      simpa using congrArg List.length hkinds
    obtain rfl : t.kind = kind := (List.cons.inj hkinds).1
    exact hlex.readsAll he
  · rintro ⟨c, rest, hr, hs⟩
    have hend : ((ofString casing text).skip (c :: rest).length).reader.rest = [] := by
      show (ofString casing text).reader.rest.drop (c :: rest).length = []
      rw [hr, List.drop_length]
    rw [hr] at hs
    obtain ⟨rfl, rfl⟩ := hlex.unique (.token hr hs (.done hend))
    exact ⟨rfl, rfl⟩

/-! ## Numbers -/

/-- The text starts with a digit, or with a point and a digit. -/
def startsWithNumber : List Char → Bool
  | c :: rest => isDigit c || c == '.' && startsWithDigit rest
  | [] => false

section

variable {c : Char} {cs rest tail : List Char} {form : Literal} {n whole fraction : Nat}

/-- No other kind of token starts like a number. -/
theorem Lexeme.scan_number (h : startsWithNumber (c :: rest) = true) :
    scan c rest =
      .token (.literal (numberLexeme (c :: rest)).1) (numberLexeme (c :: rest)).2 := by
  have hn : isDigit c = true ∨ c = '.' ∧ startsWithDigit rest = true := by
    simpa [startsWithNumber] using h
  have hc : isBlank c = false ∧ c ≠ '/' ∧ isQuote c = false := by
    rcases hn with hd | ⟨rfl, _⟩
    · have hne : ∀ d, isDigit d = false → c ≠ d := by
        rintro d hno rfl
        exact absurd hd (by simp [hno])
      refine ⟨?_, hne '/' (by decide), ?_⟩
      · simp [isBlank, hne ' ' (by decide), hne '\t' (by decide), hne '\r' (by decide),
          hne '\n' (by decide), hne '\x0c' (by decide)]
      · simp [isQuote, hne '\x27' (by decide)]
    · decide
  obtain ⟨hblank, hslash, hquote⟩ := hc
  rw [scan, if_neg (by simp [hblank]), if_neg (by simp [hslash]), if_neg (by simp [hslash]),
    if_neg (by simp [hquote]), if_pos hn]

theorem Lexeme.number_of_scan (hs : scan c rest = .token (.literal form) n)
    (hform : form ≠ .string) :
    startsWithNumber (c :: rest) = true ∧ numberLexeme (c :: rest) = (form, n) := by
  have hword := isWord_wordLexeme (c :: rest)
  unfold scan at hs
  grind [startsWithNumber, Kind.isWord]

theorem Lexeme.readsAll_literal_iff (hform : form ≠ .string) :
    ReadsAll (.literal form) cs ↔
      startsWithNumber cs = true ∧ numberLexeme cs = (form, cs.length) := by
  constructor
  · rintro ⟨c, rest, rfl, hs⟩
    exact number_of_scan hs hform
  · rintro ⟨hstart, hn⟩
    cases cs with
    | nil => cases hstart
    | cons c rest =>
      refine ⟨c, rest, rfl, ?_⟩
      rw [scan_number hstart, hn]

theorem Lexeme.scan_string (hq : isQuote c = true) (hend : stringEnd 1 rest = .closed n) :
    scan c rest = .token (.literal .string) n := by
  obtain rfl : c = '\x27' := by simpa [isQuote] using hq
  rw [scan, if_neg (by decide), if_neg (by simp), if_neg (by simp), if_pos hq, hend]

theorem numberLexeme_ne_string (cs : List Char) : (numberLexeme cs).1 ≠ .string := by
  unfold numberLexeme
  grind

theorem Lexeme.string_of_scan (hs : scan c rest = .token (.literal .string) n) :
    isQuote c = true ∧ stringEnd 1 rest = .closed n := by
  have hword := isWord_wordLexeme (c :: rest)
  have hnumber := numberLexeme_ne_string (c :: rest)
  unfold scan at hs
  grind [Kind.isWord]

theorem startsWithSuffix_singleton (c d : Char) : startsWithSuffix d [c] = (c == d) := by
  simp [startsWithSuffix, startsWithWordPart]

theorem eq_singleton_of_startsWithSuffix {d : Char} (h : startsWithSuffix d cs = true)
    (hlen : cs.length = 1) : cs = [d] := by
  obtain ⟨c, rfl⟩ := List.length_eq_one_iff.1 hlen
  rw [startsWithSuffix_singleton, beq_iff_eq] at h
  rw [h]

/-- Which number takes all characters shows behind its digits and its fraction. -/
theorem numberLexeme_all_iff (hwhole : spanLength isDigit cs = whole)
    (htail : cs.drop whole = tail) (hfraction : fractionLength tail = fraction)
    (hrest : tail.drop fraction = rest) :
    numberLexeme cs = (form, cs.length) ↔
      match form with
      | .date => whole = 4 ∧ startsWithMonthAndDay tail = true ∧
          timeLength (tail.drop 6) = (tail.drop 6).length
      | .long => fraction = 0 ∧ rest = ['l']
      | .number => rest = ['d'] ∨ fraction ≠ 0 ∧ rest = []
      | .integer => fraction = 0 ∧ rest = []
      | .string => False := by
  have hlw := hwhole ▸ spanLength_le isDigit cs
  have hlf := hfraction ▸ fractionLength_le tail
  have htaillen : tail.length = cs.length - whole := by rw [← htail, List.length_drop]
  have hrestlen : rest.length = tail.length - fraction := by rw [← hrest, List.length_drop]
  have hdate : startsWithMonthAndDay tail = true → fraction = 0 ∧ 6 ≤ rest.length := fun h => by
    have hzero := fractionLength_of_startsWithMonthAndDay h
    have hsix := startsWithMonthAndDay_length h
    omega
  have hone : ∀ d, startsWithSuffix d rest = true → (rest.length = 1 ↔ rest = [d]) :=
    fun d h => ⟨eq_singleton_of_startsWithSuffix h, fun h => by rw [h]; rfl⟩
  have hsuffix : ∀ d, rest = [d] → startsWithSuffix d rest = true := by
    rintro d rfl
    simp [startsWithSuffix_singleton]
  have hpos : ∀ d, startsWithSuffix d rest = true → 1 ≤ rest.length :=
    fun _ => startsWithSuffix_length
  have hnil := List.length_eq_zero_iff (l := rest)
  rw [numberLexeme_eq hwhole htail hfraction hrest]
  by_cases hday : whole = 4 ∧ startsWithMonthAndDay tail = true
  · have hrest := hdate hday.2
    have hne : ∀ d, rest ≠ [d] := by
      rintro d rfl
      simp at hrest
    rw [if_pos hday, Prod.mk.injEq, List.length_drop]
    cases form with
    | date => simp only [hday, true_and]; omega
    | long | number | integer | string => grind
  · rw [if_neg hday]
    cases form with
    | date => grind
    | long | number | integer | string => grind [startsWithSuffix_singleton]

theorem startsWithNumber_iff : startsWithNumber cs = true ↔
    startsWithDigit cs = true ∨ fractionLength (cs.dropWhile isDigit) ≠ 0 := by
  cases cs with
  | nil => simp [startsWithNumber, startsWithDigit, fractionLength]
  | cons c rest =>
    have hhead : startsWithDigit (c :: rest) = isDigit c := rfl
    rw [hhead]
    by_cases hd : isDigit c = true
    · simp [startsWithNumber, hd]
    · rw [List.dropWhile_cons, if_neg hd]
      by_cases hdot : c = '.'
      · subst hdot
        by_cases hrest : startsWithDigit rest = true
        · have hpos := fractionLength_pos hrest
          simp [startsWithNumber, hrest, Nat.ne_of_gt hpos]
        · simp [startsWithNumber, fractionLength, hrest]
      · simp [startsWithNumber, fractionLength, hd, hdot]

/-- Without a fraction a number starts with a digit. -/
theorem startsWithNumber_and_iff (hrest : fractionLength rest = 0) :
    (startsWithNumber cs = true ∧ fractionLength (cs.dropWhile isDigit) = 0 ∧
      (cs.dropWhile isDigit).drop (fractionLength (cs.dropWhile isDigit)) = rest) ↔
    startsWithDigit cs = true ∧ cs.dropWhile isDigit = rest := by
  rw [startsWithNumber_iff]
  constructor
  · rintro ⟨hstart, hzero, heq⟩
    rw [hzero, List.drop_zero] at heq
    exact ⟨hstart.resolve_right fun hne => hne hzero, heq⟩
  · rintro ⟨hdigit, rfl⟩
    rw [hrest]
    exact ⟨.inl hdigit, rfl, List.drop_zero⟩

end

namespace Literals

/-! ### The languages of numbers -/

def digit : Language Char := oneOf isDigit

/-- One or more digits. -/
def integers : Language Char := digit * digit∗

/-- Digits and the letter `l`. -/
def longs (casing : Casing) : Language Char := integers * letter casing 'l' 'L'

/-- Behind a point, digits and perhaps the letter `d`; or digits and the letter `d`. -/
def numbers (casing : Casing) : Language Char :=
  digit∗ * (oneOf (· == '.') * (integers * (1 + letter casing 'd' 'D'))) +
    integers * letter casing 'd' 'D'

section

variable {p : Char → Bool} {L : Language Char} {cs : List Char}

/-- Behind a digit, a run of a class that has all digits is passed over. -/
theorem mem_digit_mul_kstar (hp : ∀ c, isDigit c = true → p c = true) (h : NeverStarts p L) :
    cs ∈ digit * ((oneOf p)∗ * L) ↔ startsWithDigit cs = true ∧ cs.dropWhile p ∈ L := by
  cases cs with
  | nil => simp [digit, startsWithDigit]
  | cons c rest =>
    rw [digit, cons_mem_oneOf_mul, mem_kstar_mul h, startsWithDigit]
    refine and_congr_right fun hd => ?_
    rw [List.dropWhile_cons, if_pos (hp c hd)]

theorem mem_integers_mul (h : NeverStarts isDigit L) :
    cs ∈ integers * L ↔ startsWithDigit cs = true ∧ cs.dropWhile isDigit ∈ L := by
  rw [integers, mul_assoc]
  exact mem_digit_mul_kstar (fun _ hd => hd) h

theorem mem_fraction_mul (h : NeverStarts isDigit L) :
    cs ∈ oneOf (· == '.') * (integers * L) ↔
      fractionLength cs ≠ 0 ∧ cs.drop (fractionLength cs) ∈ L := by
  cases cs with
  | nil => simp [fractionLength]
  | cons c rest =>
    rw [cons_mem_oneOf_mul, mem_integers_mul h, beq_iff_eq]
    by_cases hdot : c = '.'
    · subst hdot
      by_cases hd : startsWithDigit rest = true
      · simp [fractionLength, hd, Nat.add_comm 1, drop_spanLength]
      · simp [fractionLength, hd]
    · simp [fractionLength, hdot]

theorem mem_letter_exact {small capital : Char} :
    cs ∈ letter .exact small capital ↔ cs = [small] := by
  simp [letter_exact, mem_oneOf]

theorem neverStarts_letter {small capital : Char} (h : isDigit small = false) :
    NeverStarts isDigit (letter .exact small capital) :=
  neverStarts_oneOf fun c hc => by rwa [beq_iff_eq.1 hc]

theorem readsAll_integer_iff : Lexeme.ReadsAll (.literal .integer) cs ↔ cs ∈ integers := by
  rw [Lexeme.readsAll_literal_iff (by decide), numberLexeme_all_iff rfl rfl rfl rfl,
    drop_spanLength, ← mul_one integers, mem_integers_mul neverStarts_one, Language.mem_one]
  exact startsWithNumber_and_iff rfl

theorem readsAll_long_iff : Lexeme.ReadsAll (.literal .long) cs ↔ cs ∈ longs .exact := by
  rw [Lexeme.readsAll_literal_iff (by decide), numberLexeme_all_iff rfl rfl rfl rfl,
    drop_spanLength, longs, mem_integers_mul (neverStarts_letter (by decide)), mem_letter_exact]
  exact startsWithNumber_and_iff rfl

theorem readsAll_number_iff : Lexeme.ReadsAll (.literal .number) cs ↔ cs ∈ numbers .exact := by
  have hpoint : NeverStarts isDigit
      (oneOf (· == '.') * (integers * (1 + letter .exact 'd' 'D'))) :=
    neverStarts_oneOf_mul fun c hc => by rw [beq_iff_eq.1 hc]; rfl
  have hletter : NeverStarts isDigit (letter .exact 'd' 'D') := neverStarts_letter (by decide)
  rw [Lexeme.readsAll_literal_iff (by decide), numberLexeme_all_iff rfl rfl rfl rfl,
    drop_spanLength, numbers, Language.mem_add, digit, mem_kstar_mul hpoint,
    mem_fraction_mul (neverStarts_one.add hletter), Language.mem_add, Language.mem_one,
    mem_integers_mul hletter, mem_letter_exact, mem_letter_exact, startsWithNumber_iff]
  dsimp only
  by_cases hzero : fractionLength (cs.dropWhile isDigit) = 0
  · simp [hzero]
  · have hne : cs.dropWhile isDigit ≠ ['d'] := by
      intro htail
      rw [htail] at hzero
      exact hzero rfl
    simp only [hzero, hne, not_false_eq_true, true_and, and_false, or_false, or_true, ne_eq]
    exact or_comm

/-! ### The language of strings -/

/-- A character of a string that stands for itself. -/
def isPlain (c : Char) : Bool := !isQuote c && c != '\\' && !isLineEnd c

/-- A plain character, or a backslash with a character of the same line behind it. -/
def stringPart : Language Char :=
  oneOf isPlain + oneOf (· == '\\') * oneOf fun c => !isLineEnd c

/-- What stands behind the first quote of a string: any parts, and a quote. -/
def stringRest : Language Char := stringPart∗ * oneOf isQuote

def strings : Language Char := oneOf isQuote * stringRest

theorem stringRest_eq : stringRest = stringPart * stringRest + oneOf isQuote := by
  refine (Language.self_eq_mul_add_iff ?_).2 rfl
  rw [stringPart, Language.mem_add]
  simp

theorem nil_notMem_stringRest : [] ∉ stringRest := by
  rintro ⟨a, _, b, ⟨c, _, rfl⟩, heq⟩
  simp at heq

/-- A string goes on in one of three ways. -/
theorem cons_mem_stringRest {c : Char} {rest : List Char} :
    c :: rest ∈ stringRest ↔
      isPlain c = true ∧ rest ∈ stringRest ∨
      c = '\\' ∧ (∃ d v, isLineEnd d = false ∧ v ∈ stringRest ∧ rest = d :: v) ∨
      isQuote c = true ∧ rest = [] := by
  conv_lhs => rw [stringRest_eq]
  rw [Language.mem_add, stringPart, add_mul, Language.mem_add, mul_assoc, cons_mem_oneOf_mul,
    cons_mem_oneOf_mul, mem_oneOf_mul, cons_mem_oneOf, or_assoc]
  simp

/-- A string is closed by the last character when it has a rest of the language. -/
theorem stringEnd_closed_iff (n : Nat) :
    stringEnd n cs = .closed (n + cs.length) ↔ cs ∈ stringRest := by
  fun_induction stringEnd n cs with
  | case1 n => simp [nil_notMem_stringRest]
  | case2 n c hq => simp [cons_mem_stringRest, hq]
  | case3 n c hq hl => simp [cons_mem_stringRest, nil_notMem_stringRest, hq]
  | case4 n c hq hl => simp [cons_mem_stringRest, nil_notMem_stringRest, hq]
  | case5 n c d rest hq =>
    have hb : c ≠ '\\' := by
      rintro rfl
      exact absurd hq (by decide)
    simp [cons_mem_stringRest, isPlain, hq, hb]
  | case6 n c d rest hq hl =>
    have hb : c ≠ '\\' := by
      rintro rfl
      exact absurd hl (by decide)
    simp [cons_mem_stringRest, isPlain, hq, hl, hb]
  | case7 n d rest hd =>
    have hplain : isPlain '\\' = false := by decide
    have hquote : isQuote '\\' = false := by decide
    simp [cons_mem_stringRest, hplain, hquote, hd]
  | case8 n d rest hd _ _ ih =>
    have hplain : isPlain '\\' = false := by decide
    have hquote : isQuote '\\' = false := by decide
    have hlen : n + ('\\' :: d :: rest).length = n + 2 + rest.length := by
      simp only [List.length_cons]
      omega
    rw [hlen, ih, cons_mem_stringRest]
    simp [hplain, hquote, hd]
  | case9 n c d rest hq hl hb ih =>
    have hplain : isPlain c = true := by simp [isPlain, hq, hl, hb]
    have hlen : n + (c :: d :: rest).length = n + 1 + (d :: rest).length := by
      simp only [List.length_cons]
      omega
    rw [hlen, ih, iff_comm, cons_mem_stringRest]
    simp [hplain, hq, hb]

theorem readsAll_string_iff : Lexeme.ReadsAll (.literal .string) cs ↔ cs ∈ strings := by
  rw [strings, mem_oneOf_mul]
  constructor
  · rintro ⟨c, rest, rfl, hs⟩
    obtain ⟨hq, hend⟩ := Lexeme.string_of_scan hs
    rw [List.length_cons, Nat.add_comm, stringEnd_closed_iff] at hend
    exact ⟨c, rest, hq, hend, rfl⟩
  · rintro ⟨c, rest, hq, hrest, rfl⟩
    refine ⟨c, rest, rfl, ?_⟩
    rw [List.length_cons, Nat.add_comm]
    exact Lexeme.scan_string hq ((stringEnd_closed_iff 1).2 hrest)

end

/-! ### Literals as they are shown -/

section

variable {casing : Casing}

theorem shown_digit : ShownAs casing digit digit := .of_uncased (by decide)

theorem shown_integers : ShownAs casing integers integers := shown_digit.mul shown_digit.kstar

theorem shown_longs : ShownAs casing (longs casing) (longs .exact) :=
  shown_integers.mul (.of_letter (by decide) (by decide))

theorem shown_numbers : ShownAs casing (numbers casing) (numbers .exact) := by
  have hpoint : ShownAs casing (oneOf (· == '.')) (oneOf (· == '.')) := .of_uncased (by decide)
  have hletter : ShownAs casing (letter casing 'd' 'D') (letter .exact 'd' 'D') :=
    .of_letter (by decide) (by decide)
  exact (shown_digit.kstar.mul (hpoint.mul (shown_integers.mul (.add .one hletter)))).add
    (shown_integers.mul hletter)

theorem shown_strings : ShownAs casing strings strings := by
  have hquote : ShownAs casing (oneOf isQuote) (oneOf isQuote) := .of_uncased (by decide)
  have hplain : ShownAs casing (oneOf isPlain) (oneOf isPlain) := .of_uncased (by decide)
  have hback : ShownAs casing (oneOf (· == '\\')) (oneOf (· == '\\')) := .of_uncased (by decide)
  have hsame : ShownAs casing (oneOf fun c => !isLineEnd c) (oneOf fun c => !isLineEnd c) :=
    .of_uncased (by decide)
  exact hquote.mul ((hplain.add (hback.mul hsame)).kstar.mul hquote)

end

/-- Literals are exactly their lexical grammar: a text is read as one integer, long, number
or string, without an error and with nothing behind it, if and only if it belongs to the
language of that literal. -/
theorem isToken_iff_mem (casing : Casing) (text : String) :
    (Lexer.IsToken casing text (.literal .integer) ↔ text.toList ∈ integers) ∧
    (Lexer.IsToken casing text (.literal .long) ↔ text.toList ∈ longs casing) ∧
    (Lexer.IsToken casing text (.literal .number) ↔ text.toList ∈ numbers casing) ∧
    (Lexer.IsToken casing text (.literal .string) ↔ text.toList ∈ strings) := by
  refine ⟨?_, ?_, ?_, ?_⟩
  · rw [Lexer.isToken_iff, readsAll_integer_iff, shown_integers]
  · rw [Lexer.isToken_iff, readsAll_long_iff, shown_longs]
  · rw [Lexer.isToken_iff, readsAll_number_iff, shown_numbers]
  · rw [Lexer.isToken_iff, readsAll_string_iff, shown_strings]

example : Lexer.IsToken .folded ".5D" (.literal .number) := by
  decide +kernel

end Literals

end ApexSyntax
