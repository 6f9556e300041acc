-- Languages of characters, and how to tell their words from left to right: a character
-- of a class is looked at, a run of a class is passed over. A reader that folds letters
-- is shown other words than are written; the languages of both go together.
import ApexSyntax.Proofs.Folding.Texts
import Mathlib.Computability.Language
import Mathlib.Order.CompletePartialOrder

namespace ApexSyntax

open Text Computability

/-! ## Classes of characters -/

/-- The words of one character of a class. -/
def oneOf (p : Char → Bool) : Language Char := {w | ∃ c, p c = true ∧ w = [c]}

section

variable {p q : Char → Bool} {L M : Language Char} {c : Char} {w : List Char}

theorem mem_oneOf : w ∈ oneOf p ↔ ∃ c, p c = true ∧ w = [c] := Iff.rfl

theorem mem_oneOf_mul : w ∈ oneOf p * L ↔ ∃ c v, p c = true ∧ v ∈ L ∧ w = c :: v := by
  rw [Language.mem_mul]
  constructor
  · rintro ⟨_, ⟨c, hc, rfl⟩, v, hv, rfl⟩
    exact ⟨c, v, hc, hv, rfl⟩
  · rintro ⟨c, v, hc, hv, rfl⟩
    exact ⟨[c], ⟨c, hc, rfl⟩, v, hv, rfl⟩

@[simp] theorem nil_notMem_oneOf : [] ∉ oneOf p := by simp [mem_oneOf]

@[simp] theorem cons_mem_oneOf : c :: w ∈ oneOf p ↔ p c = true ∧ w = [] := by
  simp [mem_oneOf]

@[simp] theorem nil_notMem_oneOf_mul : [] ∉ oneOf p * L := by simp [mem_oneOf_mul]

@[simp] theorem cons_mem_oneOf_mul : c :: w ∈ oneOf p * L ↔ p c = true ∧ w ∈ L := by
  rw [mem_oneOf_mul]
  constructor
  · rintro ⟨_, _, hc, hv, heq⟩
    cases heq
    exact ⟨hc, hv⟩
  · exact fun ⟨hc, hw⟩ => ⟨c, w, hc, hw, rfl⟩

theorem oneOf_le (h : ∀ c, p c = true → q c = true) : oneOf p ≤ oneOf q := by
  rintro _ ⟨c, hc, rfl⟩
  exact ⟨c, h c hc, rfl⟩

/-! ## Runs of a class -/

/-- No word of the language starts with a character of the class. -/
def NeverStarts (p : Char → Bool) (L : Language Char) : Prop := ∀ c w, c :: w ∈ L → p c = false

theorem neverStarts_one : NeverStarts p 1 := nofun

theorem NeverStarts.add (hL : NeverStarts p L) (hM : NeverStarts p M) : NeverStarts p (L + M) :=
  fun c w h => h.elim (hL c w) (hM c w)

theorem neverStarts_oneOf_mul (h : ∀ c, q c = true → p c = false) : NeverStarts p (oneOf q * L) :=
  fun c _ hw => h c (cons_mem_oneOf_mul.1 hw).1

theorem neverStarts_oneOf (h : ∀ c, q c = true → p c = false) : NeverStarts p (oneOf q) := by
  rw [← mul_one (oneOf q)]
  exact neverStarts_oneOf_mul h

/-- The words that belong to the language when a run at their start is passed over. -/
def pastRun (p : Char → Bool) (L : Language Char) : Language Char := {w | w.dropWhile p ∈ L}

theorem mem_pastRun : w ∈ pastRun p L ↔ w.dropWhile p ∈ L := Iff.rfl

/-- A run of a class is taken away one character after the other. -/
theorem pastRun_eq (h : NeverStarts p L) : pastRun p L = oneOf p * pastRun p L + L := by
  ext w
  rw [Language.mem_add, mem_pastRun]
  cases w with
  | nil => simp
  | cons c w =>
    rw [cons_mem_oneOf_mul, mem_pastRun]
    by_cases hc : p c = true
    · have hno : c :: w ∉ L := fun hw => absurd (h c w hw) (by simp [hc])
      simp [hc, hno]
    · simp [hc]

/-- What may stand behind a run of a class is found by passing over the run. -/
theorem mem_kstar_mul (h : NeverStarts p L) : w ∈ (oneOf p)∗ * L ↔ w.dropWhile p ∈ L := by
  rw [← (Language.self_eq_mul_add_iff nil_notMem_oneOf).1 (pastRun_eq h), mem_pastRun]

theorem mul_le_kstar (hL : L ≤ (oneOf p)∗) (hM : M ≤ (oneOf p)∗) : L * M ≤ (oneOf p)∗ := by
  calc L * M ≤ (oneOf p)∗ * (oneOf p)∗ := mul_le_mul' hL hM
    _ = (oneOf p)∗ := kstar_mul_kstar _

theorem oneOf_le_kstar (h : ∀ c, q c = true → p c = true) : oneOf q ≤ (oneOf p)∗ :=
  (oneOf_le h).trans le_kstar

end

/-! ## Words as they are shown -/

/-- A class to which small letters belong like capital ones does not see folding. -/
theorem apply_show {p : Char → Bool}
    (h : ∀ i : Fin 26, p (foldChar (Char.ofNat (65 + i))) = p (Char.ofNat (65 + i)))
    (casing : Casing) (c : Char) : p (casing.show c) = p c := by
  cases casing with
  | exact => rfl
  | folded =>
    by_cases hc : 'A' ≤ c ∧ c ≤ 'Z'
    · obtain ⟨i, rfl⟩ := exists_of_isCapital hc
      exact h i
    · rw [Casing.show, foldChar_of_not_capital hc]

/-- A capital letter is folded like its small letter, and like nothing else. -/
theorem foldChar_eq_iff {c d : Char} (hd : 'A' ≤ d ∧ d ≤ 'Z') :
    foldChar c = foldChar d ↔ c = foldChar d ∨ c = d := by
  by_cases hc : 'A' ≤ c ∧ c ≤ 'Z'
  · obtain ⟨i, rfl⟩ := exists_of_isCapital hc
    obtain ⟨j, rfl⟩ := exists_of_isCapital hd
    clear hc hd
    revert i j
    decide +kernel
  · rw [foldChar_of_not_capital hc, or_iff_left]
    rintro rfl
    exact hc hd

/-- A letter; where letters are folded, small or capital. -/
def letter (casing : Casing) (small capital : Char) : Language Char :=
  match casing with
  | .exact => oneOf (· == small)
  | .folded => oneOf fun c => c == small || c == capital

theorem letter_exact (small capital : Char) :
    letter .exact small capital = oneOf (· == small) := rfl

/-- The words of a language are shown as the words of another one, and no other words are. -/
def ShownAs (casing : Casing) (L L₀ : Language Char) : Prop :=
  ∀ w : List Char, w.map casing.show ∈ L₀ ↔ w ∈ L

namespace ShownAs

variable {casing : Casing} {p q : Char → Bool} {L M L₀ M₀ : Language Char}

theorem one : ShownAs casing 1 1 := fun w => by
  rw [Language.mem_one, Language.mem_one, List.map_eq_nil_iff]

theorem add (hL : ShownAs casing L L₀) (hM : ShownAs casing M M₀) :
    ShownAs casing (L + M) (L₀ + M₀) := fun w => by
  rw [Language.mem_add, Language.mem_add, hL w, hM w]

theorem mul (hL : ShownAs casing L L₀) (hM : ShownAs casing M M₀) :
    ShownAs casing (L * M) (L₀ * M₀) := fun w => by
  rw [Language.mem_mul, Language.mem_mul]
  constructor
  · rintro ⟨a₀, ha, b₀, hb, heq⟩
    obtain ⟨a, b, rfl, rfl, rfl⟩ := List.map_eq_append_iff.1 heq.symm
    exact ⟨a, (hL a).1 ha, b, (hM b).1 hb, rfl⟩
  · rintro ⟨a, ha, b, hb, rfl⟩
    exact ⟨_, (hL a).2 ha, _, (hM b).2 hb, List.map_append.symm⟩

theorem pow (hL : ShownAs casing L L₀) (n : ℕ) : ShownAs casing (L ^ n) (L₀ ^ n) := by
  induction n with
  | zero =>
    rw [pow_zero, pow_zero]
    exact one
  | succ n ih =>
    rw [pow_succ, pow_succ]
    exact ih.mul hL

theorem kstar (hL : ShownAs casing L L₀) : ShownAs casing L∗ L₀∗ := fun w => by
  rw [Language.kstar_eq_iSup_pow, Language.kstar_eq_iSup_pow, Language.mem_iSup,
    Language.mem_iSup]
  exact exists_congr fun n => hL.pow n w

theorem of_class (h : ∀ c, q (casing.show c) = p c) : ShownAs casing (oneOf p) (oneOf q) :=
  fun w => by
    cases w with
    | nil => simp
    | cons c w => rw [List.map_cons, cons_mem_oneOf, cons_mem_oneOf, h, List.map_eq_nil_iff]

/-- Characters of a class without cases are shown as characters of the class. -/
theorem of_uncased
    (h : ∀ i : Fin 26, p (foldChar (Char.ofNat (65 + i))) = p (Char.ofNat (65 + i))) :
    ShownAs casing (oneOf p) (oneOf p) :=
  of_class (apply_show h casing)

theorem of_letter {small capital : Char} (hc : 'A' ≤ capital ∧ capital ≤ 'Z')
    (hs : foldChar capital = small) :
    ShownAs casing (letter casing small capital) (letter .exact small capital) := by
  cases casing with
  | exact => exact of_class fun c => rfl
  | folded =>
    refine of_class fun c => ?_
    subst hs
    rw [Bool.eq_iff_iff]
    simpa [Casing.show] using foldChar_eq_iff hc

end ShownAs

end ApexSyntax
