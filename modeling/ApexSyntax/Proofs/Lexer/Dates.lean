-- Dates, as they are read and as they are written. A time of day behind a date is read as
-- a run of digits, colons and points, and its zone as a run of digits and colons. So every
-- date that is written with two digits for each field is read, and many others are too.
import ApexSyntax.Proofs.Lexer.Literals

namespace ApexSyntax

open Text Computability

namespace Literals

/-! ## Dates as they are written -/

def dash : Language Char := oneOf (· == '-')

def colon : Language Char := oneOf (· == ':')

def sign : Language Char := oneOf fun c => c == '+' || c == '-'

/-- A day: `dddd-dd-dd`. -/
def days : Language Char := digit ^ 4 * dash * digit ^ 2 * dash * digit ^ 2

/-- The letter `z`, or a sign and an offset `hh:mm`. -/
def writtenZones (casing : Casing) : Language Char :=
  letter casing 'z' 'Z' + sign * (digit ^ 2 * colon * digit ^ 2)

/-- A time of day `Thh:mm:ss[.sss]`, perhaps with a zone. -/
def writtenTimes (casing : Casing) : Language Char :=
  letter casing 't' 'T' *
    (digit ^ 2 * colon * digit ^ 2 * colon * digit ^ 2 * (1 + oneOf (· == '.') * digit ^ 3) *
      (1 + writtenZones casing))

/-- A day, perhaps with a time of day. -/
def writtenDates (casing : Casing) : Language Char := days * (1 + writtenTimes casing)

/-! ## Dates as they are read -/

/-- The letter `z`, or a sign, a digit, and a run of digits and colons. -/
def readZones (casing : Casing) : Language Char :=
  letter casing 'z' 'Z' + sign * (digit * (oneOf isOffsetPart)∗)

/-- The letter `t`, a digit, a run of digits, colons and points, and perhaps a zone. -/
def readTimes (casing : Casing) : Language Char :=
  letter casing 't' 'T' * (digit * ((oneOf isClockPart)∗ * (1 + readZones casing)))

/-- A day, perhaps with a time of day as it is read. -/
def readDates (casing : Casing) : Language Char := days * (1 + readTimes casing)

section

variable {casing : Casing} {cs : List Char} {L : Language Char}

theorem isOffsetPart_of_isDigit (c : Char) (h : isDigit c = true) : isOffsetPart c = true := by
  simp [isOffsetPart, h]

theorem isClockPart_of_isDigit (c : Char) (h : isDigit c = true) : isClockPart c = true := by
  simp [isClockPart, h]

theorem digit_pow_le {p : Char → Bool} (h : ∀ c, isDigit c = true → p c = true) (n : ℕ) :
    digit ^ n ≤ (oneOf p)∗ := by
  induction n with
  | zero =>
    rw [pow_zero]
    exact one_le_kstar
  | succ n ih =>
    rw [pow_succ]
    exact mul_le_kstar ih (oneOf_le_kstar h)

theorem writtenZones_le : writtenZones casing ≤ readZones casing := by
  have hoffset : digit * (colon * digit ^ 2) ≤ (oneOf isOffsetPart)∗ :=
    mul_le_kstar (oneOf_le_kstar isOffsetPart_of_isDigit)
      (mul_le_kstar (oneOf_le_kstar fun c hc => by simp [isOffsetPart, beq_iff_eq.1 hc])
        (digit_pow_le isOffsetPart_of_isDigit 2))
  have hsplit : digit ^ 2 * colon * digit ^ 2 = digit * (digit * (colon * digit ^ 2)) := by
    rw [pow_two, mul_assoc, mul_assoc]
  rw [writtenZones, hsplit]
  exact add_le_add le_rfl (mul_le_mul' le_rfl (mul_le_mul' le_rfl hoffset))

theorem writtenTimes_le : writtenTimes casing ≤ readTimes casing := by
  have hdigits := digit_pow_le isClockPart_of_isDigit
  have hcolon : colon ≤ (oneOf isClockPart)∗ :=
    oneOf_le_kstar fun c hc => by simp [isClockPart, beq_iff_eq.1 hc]
  have hpoint : oneOf (· == '.') ≤ (oneOf isClockPart)∗ :=
    oneOf_le_kstar fun c hc => by simp [isClockPart, beq_iff_eq.1 hc]
  have hclock : digit ^ 1 * (colon * (digit ^ 2 * (colon * (digit ^ 2 *
      (1 + oneOf (· == '.') * digit ^ 3))))) ≤ (oneOf isClockPart)∗ :=
    mul_le_kstar (hdigits 1) (mul_le_kstar hcolon (mul_le_kstar (hdigits 2) (mul_le_kstar hcolon
      (mul_le_kstar (hdigits 2) (add_le one_le_kstar (mul_le_kstar hpoint (hdigits 3)))))))
  have hsplit : digit ^ 2 * colon * digit ^ 2 * colon * digit ^ 2 *
      (1 + oneOf (· == '.') * digit ^ 3) * (1 + writtenZones casing) =
      digit * (digit ^ 1 * (colon * (digit ^ 2 * (colon * (digit ^ 2 *
        (1 + oneOf (· == '.') * digit ^ 3))))) * (1 + writtenZones casing)) := by
    simp only [pow_two, pow_one, mul_assoc]
  rw [writtenTimes, hsplit]
  exact mul_le_mul' le_rfl (mul_le_mul' le_rfl
    (mul_le_mul' hclock (add_le_add le_rfl writtenZones_le)))

/-- Everything that is written as a date is read as one. -/
theorem writtenDates_le : writtenDates casing ≤ readDates casing :=
  mul_le_mul' le_rfl (add_le_add le_rfl writtenTimes_le)

/-! ## What is read as a date -/

theorem neverStarts_readZones {p : Char → Bool} (hz : p 'z' = false) (hplus : p '+' = false)
    (hminus : p '-' = false) : NeverStarts p (1 + readZones .exact) := by
  refine neverStarts_one.add
    (.add (neverStarts_oneOf fun c hc => ?_) (neverStarts_oneOf_mul fun c hc => ?_))
  · rwa [beq_iff_eq.1 hc]
  · rw [Bool.or_eq_true, beq_iff_eq, beq_iff_eq] at hc
    rcases hc with rfl | rfl <;> assumption

theorem spanLength_all_iff {p : Char → Bool} :
    spanLength p cs = cs.length ↔ cs.dropWhile p = [] := by
  have hle := spanLength_le p cs
  rw [← drop_spanLength, List.drop_eq_nil_iff]
  omega

/-- A zone takes all characters when they are a zone, or when there are none. -/
theorem zoneLength_all_iff : zoneLength cs = cs.length ↔ cs ∈ 1 + readZones .exact := by
  rw [Language.mem_add, Language.mem_one, readZones, Language.mem_add, mem_letter_exact]
  cases cs with
  | nil => simp [zoneLength]
  | cons c rest =>
    rw [sign, cons_mem_oneOf_mul, ← mul_one (oneOf isOffsetPart)∗,
      mem_digit_mul_kstar isOffsetPart_of_isDigit neverStarts_one, Language.mem_one]
    by_cases hz : c = 'z'
    · subst hz
      have hone : zoneLength ('z' :: rest) = 1 := rfl
      rw [hone, eq_comm]
      simp
    · rw [zoneLength]
      · simp only [List.cons_ne_nil, List.cons.injEq, hz, false_and, false_or, Bool.or_eq_true,
          beq_iff_eq, List.length_cons, ← spanLength_all_iff, ← and_assoc]
        split
        · rename_i h
          simp only [h, true_and]
          omega
        · rename_i h
          simp [h]
      · exact hz

theorem timeLength_all_iff : timeLength cs = cs.length ↔ cs ∈ 1 + readTimes .exact := by
  rw [Language.mem_add, Language.mem_one, readTimes]
  cases cs with
  | nil => simp [timeLength]
  | cons c rest =>
    rw [letter_exact, cons_mem_oneOf_mul, mem_digit_mul_kstar isClockPart_of_isDigit
      (neverStarts_readZones rfl rfl rfl), ← zoneLength_all_iff, ← drop_spanLength, beq_iff_eq]
    have hle := spanLength_le isClockPart rest
    by_cases ht : c = 't'
    · subst ht
      rw [timeLength]
      by_cases hd : startsWithDigit rest = true
      · simp only [hd, if_true, true_and, List.length_drop, List.length_cons, List.cons_ne_nil,
          false_or]
        omega
      · simp [hd]
    · simp [timeLength, ht]

/-- A number of digits is taken where there are so many, and no more. -/
theorem mem_digit_pow_mul (h : NeverStarts isDigit L) (n : ℕ) :
    cs ∈ digit ^ n * L ↔ spanLength isDigit cs = n ∧ cs.dropWhile isDigit ∈ L := by
  induction n generalizing cs with
  | zero =>
    rw [pow_zero, one_mul]
    cases cs with
    | nil => simp [spanLength]
    | cons c rest =>
      by_cases hd : isDigit c = true
      · have hno : c :: rest ∉ L := fun hc => absurd (h c rest hc) (by simp [hd])
        simp [hno, spanLength_cons hd]
      · simp [spanLength, hd]
  | succ n ih =>
    rw [pow_succ', mul_assoc]
    cases cs with
    | nil => simp [digit, spanLength]
    | cons c rest =>
      rw [digit, cons_mem_oneOf_mul, ← digit, ih]
      by_cases hd : isDigit c = true
      · simp [hd, spanLength_cons hd]
      · simp [hd, spanLength]

theorem mem_monthAndDay_mul : cs ∈ dash * (digit ^ 2 * (dash * (digit ^ 2 * L))) ↔
    startsWithMonthAndDay cs = true ∧ cs.drop 6 ∈ L := by
  simp only [pow_two, mul_assoc, dash, digit]
  constructor
  · intro h
    simp only [mem_oneOf_mul, beq_iff_eq] at h
    obtain ⟨_, _, rfl, ⟨a, _, ha, ⟨b, _, hb, ⟨_, _, rfl, ⟨c, _, hc, ⟨d, v, hd, hv, rfl⟩, rfl⟩,
      rfl⟩, rfl⟩, rfl⟩, rfl⟩ := h
    simp [startsWithMonthAndDay, ha, hb, hc, hd, hv]
  · rintro ⟨h, hrest⟩
    unfold startsWithMonthAndDay at h
    split at h
    · simp only [Bool.and_eq_true] at h
      simpa [h] using hrest
    · cases h

theorem mem_days_mul : cs ∈ days * L ↔
    spanLength isDigit cs = 4 ∧ startsWithMonthAndDay (cs.dropWhile isDigit) = true ∧
      (cs.dropWhile isDigit).drop 6 ∈ L := by
  have hdash : NeverStarts isDigit (dash * (digit ^ 2 * (dash * (digit ^ 2 * L)))) :=
    neverStarts_oneOf_mul fun c hc => by rw [beq_iff_eq.1 hc]; rfl
  rw [days, mul_assoc, mul_assoc, mul_assoc, mul_assoc, mem_digit_pow_mul hdash,
    mem_monthAndDay_mul]

theorem readsAll_date_iff : Lexeme.ReadsAll (.literal .date) cs ↔ cs ∈ readDates .exact := by
  rw [Lexeme.readsAll_literal_iff (by decide), numberLexeme_all_iff rfl rfl rfl rfl,
    drop_spanLength, readDates, mem_days_mul, timeLength_all_iff]
  dsimp only
  refine and_iff_right_of_imp fun h => ?_
  cases cs with
  | nil => cases h.1
  | cons c rest =>
    have hd : isDigit c = true := by
      by_contra hno
      simp [spanLength, hno] at h
    simp [startsWithNumber, hd]

theorem shown_readDates : ShownAs casing (readDates casing) (readDates .exact) := by
  have hdash : ShownAs casing dash dash := .of_uncased (by decide)
  have hsign : ShownAs casing sign sign := .of_uncased (by decide)
  have hoffset : ShownAs casing (oneOf isOffsetPart) (oneOf isOffsetPart) :=
    .of_uncased (by decide)
  have hclock : ShownAs casing (oneOf isClockPart) (oneOf isClockPart) := .of_uncased (by decide)
  have hz : ShownAs casing (letter casing 'z' 'Z') (letter .exact 'z' 'Z') :=
    .of_letter (by decide) (by decide)
  have ht : ShownAs casing (letter casing 't' 'T') (letter .exact 't' 'T') :=
    .of_letter (by decide) (by decide)
  have hdays : ShownAs casing days days :=
    ((((shown_digit.pow 4).mul hdash).mul (shown_digit.pow 2)).mul hdash).mul (shown_digit.pow 2)
  have hzones : ShownAs casing (readZones casing) (readZones .exact) :=
    hz.add (hsign.mul (shown_digit.mul hoffset.kstar))
  have htimes : ShownAs casing (readTimes casing) (readTimes .exact) :=
    ht.mul (shown_digit.mul (hclock.kstar.mul (.add .one hzones)))
  exact hdays.mul (.add .one htimes)

end

/-- A text is read as one date, without an error and with nothing behind it, if and only if
it is a day, perhaps with a time of day whose fields are runs of digits and marks. Every
date with two digits for each field is among them. -/
theorem isToken_date_iff (casing : Casing) (text : String) :
    (Lexer.IsToken casing text (.literal .date) ↔ text.toList ∈ readDates casing) ∧
      writtenDates casing ≤ readDates casing := by
  refine ⟨?_, writtenDates_le⟩
  rw [Lexer.isToken_iff, readsAll_date_iff, shown_readDates]

/-- A time of day of one digit is read, and no date is written so. -/
theorem isToken_date_of_hour :
    Lexer.IsToken .folded "2020-01-31T1" (.literal .date) ∧
      "2020-01-31T1".toList ∉ writtenDates .folded := by
  refine ⟨by decide +kernel, ?_⟩
  have htime : ['T', '1'] ∉ 1 + writtenTimes .folded := by
    rw [Language.mem_add, Language.mem_one, writtenTimes, letter, cons_mem_oneOf_mul, pow_two]
    simp [mul_assoc, digit]
  rw [writtenDates, mem_days_mul]
  exact fun h => htime h.2.2

end Literals

end ApexSyntax
