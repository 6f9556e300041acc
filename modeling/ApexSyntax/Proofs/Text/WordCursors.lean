-- Cursors whose places and offsets are words of a machine. A number that does not fit into its
-- word is a fault, and so is a slice that the text does not have. No operation comes to a fault,
-- and the answers are those of a cursor that counts with numbers of any size.
import Mathlib.Data.UInt
import ApexSyntax.Proofs.Text.Operations

namespace ApexSyntax.Text

/-! ## Words -/

/-- The word of a number, if it fits into one. -/
def word? (n : Int) : Option UInt64 :=
  if 0 ≤ n ∧ n < 2 ^ 64 then some (.ofNat n.toNat) else none

/-- The word with a sign of a number, if it fits into one. -/
def signedWord? (n : Int) : Option Int64 :=
  if -2 ^ 63 ≤ n ∧ n < 2 ^ 63 then some (.ofInt n) else none

theorem exists_word? {n : Nat} (h : n < 2 ^ 64) : ∃ w, word? n = some w ∧ w.toNat = n := by
  refine ⟨.ofNat n, if_pos (by omega), ?_⟩
  rw [UInt64.toNat_ofNat', Nat.mod_eq_of_lt h]

theorem word?_of_lt {n : Int} (h : n < 0) : word? n = none := if_neg (by omega)

theorem word?_of_le {n : Int} (h : 2 ^ 64 ≤ n) : word? n = none := if_neg (by omega)

/-! ## Cursors -/

/-- A buffered text of as many characters as a word can count, and a place. Nothing keeps the
place in the text. -/
structure WordCursor where
  source : Array Char
  size : UInt64
  size_eq : size.toNat = source.size
  index : UInt64

namespace WordCursor

def ofString (text : String) (h : text.length < 2 ^ 64) : WordCursor where
  source := text.toList.toArray
  size := .ofNat text.length
  size_eq := by
    rw [UInt64.toNat_ofNat', Nat.mod_eq_of_lt h, List.size_toArray, String.length_toList]
  index := 0

/-- The character at an offset. The sum and the difference of the place and the offset may lie
outside of all words: there is no character. -/
def look? (w : WordCursor) (offset : Int64) : Option (Option Char) :=
  if offset = 0 then some none
  else if 0 < offset then do
    let distance ← signedWord? (offset.toInt - 1)
    return (word? (w.index.toNat + distance.toInt)).bind fun i => w.source[i.toNat]?
  else some ((word? (w.index.toNat - offset.toInt.natAbs)).bind fun i => w.source[i.toNat]?)

def advance? (w : WordCursor) : Option WordCursor :=
  if w.index < w.size then do
    let next ← word? (w.index.toNat + 1)
    return { w with index := next }
  else some w

def seek (w : WordCursor) (index : UInt64) : WordCursor := { w with index := min index w.size }

/-- The characters from `start` up to `stop`. What is cut out must lie in the text. -/
def slice? (w : WordCursor) (start stop : UInt64) : Option String :=
  if w.size = 0 ∨ stop < start ∨ w.size ≤ start then some ""
  else do
    let last ← word? (w.size.toNat - 1)
    let behind ← word? ((min stop last).toNat + 1)
    if start ≤ behind ∧ behind ≤ w.size then
      return String.ofList (w.source.extract start.toNat behind.toNat).toList
    else none

/-- The cursor after an operation, and its answer, unless it comes to a fault. -/
def step? (casing : Casing) (w : WordCursor) :
    Cursor.Operation → Option (WordCursor × Cursor.Answer)
  | .look offset => do return (w, .seen ((← w.look? offset).map casing.show))
  | .advance => do return (← w.advance?, .moved)
  | .index => some (w, .number w.index.toNat)
  | .seek index => some (w.seek index, .moved)
  | .mark => some (w, .number w.index.toNat)
  | .release _ => some (w, .moved)
  | .size => some (w, .number w.size.toNat)
  | .slice start stop => do return (w, .text (← w.slice? start stop))

/-- The cursor after some operations, and their answers, unless one comes to a fault. -/
def run? (casing : Casing) (w : WordCursor) :
    List Cursor.Operation → Option (WordCursor × List Cursor.Answer)
  | [] => some (w, [])
  | op :: ops => do
    let (w', a) ← w.step? casing op
    let (w'', as) ← w'.run? casing ops
    return (w'', a :: as)

/-! ## The same answers -/

/-- The words are those of a cursor. -/
structure Counts (w : WordCursor) (c : Cursor) : Prop where
  source : w.source = c.source
  index : w.index.toNat = c.index

variable {w : WordCursor} {c : Cursor}

theorem counts_ofString (text : String) (h : text.length < 2 ^ 64) :
    (ofString text h).Counts (Cursor.ofString text) := ⟨rfl, rfl⟩

theorem pos_iff {offset : Int64} : 0 < offset ↔ 0 < offset.toInt := by
  rw [Int64.lt_iff_toInt_lt, Int64.toInt_zero]

namespace Counts

theorem size (h : w.Counts c) : w.size.toNat = c.size := by
  rw [w.size_eq, h.source]
  rfl

/-- What a place and an offset come to is looked up where it is a word; all else is outside of
the text. -/
theorem getElem?_word (h : w.Counts c) (n : Nat) :
    ((word? n).bind fun i => w.source[i.toNat]?) = c.source[n]? := by
  rcases Nat.lt_or_ge n (2 ^ 64) with hn | hn
  · obtain ⟨i, hi, rfl⟩ := exists_word? hn
    rw [hi, Option.bind_some, h.source]
  · have hsize : c.size < 2 ^ 64 := h.size ▸ w.size.toNat_lt
    rw [word?_of_le (by omega), Option.bind_none,
      Array.getElem?_eq_none (Nat.le_trans (Nat.le_of_lt hsize) hn)]

/-- An offset ahead of the place, less one, is a word too. -/
theorem look?_ahead (h : w.Counts c) {offset : Int64} (hpos : 0 < offset.toInt) :
    w.look? offset = some (c.look offset.toInt) := by
  have hhigh := offset.toInt_lt
  have hzero : offset ≠ 0 := by
    rintro rfl
    exact absurd hpos (by decide)
  obtain ⟨n, hn⟩ := Int.eq_ofNat_of_zero_le (show 0 ≤ offset.toInt - 1 by omega)
  have hword : signedWord? (offset.toInt - 1) = some (.ofInt n) := by
    rw [signedWord?, if_pos (by omega), hn]
  have hvalue : (Int64.ofInt n).toInt = n := Int64.toInt_ofInt_of_le (by omega) (by omega)
  have hlook : c.look offset.toInt = c.source[c.index + n]? := by
    rw [show offset.toInt = ((n + 1 : Nat) : Int) by omega]
    rfl
  rw [WordCursor.look?, if_neg hzero, if_pos (pos_iff.2 hpos), hword, Option.bind_eq_bind,
    Option.bind_some, hvalue, h.index, ← Int.natCast_add, h.getElem?_word, hlook]
  rfl

/-- An offset back, down to the least one, has a size that is a word. The place may be less. -/
theorem look?_back (h : w.Counts c) {offset : Int64} (hneg : offset.toInt < 0) :
    w.look? offset = some (c.look offset.toInt) := by
  have hzero : offset ≠ 0 := by
    rintro rfl
    exact absurd hneg (by decide)
  have hpos : ¬0 < offset := fun hpos => by
    have := pos_iff.1 hpos
    omega
  obtain ⟨n, hn⟩ := Int.eq_negSucc_of_lt_zero hneg
  have hsize : (offset.toInt.natAbs : Int) = n + 1 := by
    rw [hn]
    rfl
  rw [WordCursor.look?, if_neg hzero, if_neg hpos, hsize, h.index, hn, Cursor.look]
  split
  · rw [← h.getElem?_word, Int.natCast_sub (by omega)]
    rfl
  · rw [word?_of_lt (by omega)]
    rfl

theorem look? (h : w.Counts c) (offset : Int64) :
    w.look? offset = some (c.look offset.toInt) := by
  rcases Int.lt_trichotomy offset.toInt 0 with hneg | hzero | hpos
  · exact h.look?_back hneg
  · obtain rfl : offset = 0 := Int64.toInt_inj.1 (hzero.trans Int64.toInt_zero.symm)
    rfl
  · exact h.look?_ahead hpos

theorem advance? (h : w.Counts c) : ∃ w', w.advance? = some w' ∧ w'.Counts c.advance := by
  have hindex := h.index
  have hsize := h.size
  have hle := c.index_le
  have hlt := w.size.toNat_lt
  rw [WordCursor.advance?]
  split
  · rename_i hmore
    rw [UInt64.lt_iff_toNat_lt] at hmore
    obtain ⟨next, hnext, hvalue⟩ := exists_word? (show w.index.toNat + 1 < 2 ^ 64 by omega)
    refine ⟨{ w with index := next }, ?_, h.source, ?_⟩
    · rw [show (w.index.toNat : Int) + 1 = ((w.index.toNat + 1 : Nat) : Int) from rfl, hnext]
      rfl
    · rw [hvalue, hindex, Cursor.advance, Cursor.index_seek, Nat.min_eq_left (by omega)]
  · rename_i hend
    rw [UInt64.lt_iff_toNat_lt] at hend
    refine ⟨w, rfl, h.source, ?_⟩
    have hlast : c.index = c.size := by
      have : c.index ≤ c.size := hle
      omega
    rw [hindex, Cursor.advance, Cursor.index_seek, Nat.min_eq_right (by omega), hlast]

theorem seek (h : w.Counts c) (index : UInt64) : (w.seek index).Counts (c.seek index.toNat) where
  source := h.source
  index := by
    rw [WordCursor.seek, UInt64.toNat_min, h.size]
    rfl

/-- A slice that reaches beyond the text ends with it. -/
theorem slice_extract (c : Cursor) (start stop : Nat) (hsize : 0 < c.size) :
    String.ofList (c.source.extract start (min stop (c.size - 1) + 1)).toList =
      c.slice start stop := by
  have hlength : c.source.toList.length = c.size := Array.length_toList
  have htake : c.source.toList.take (min stop (c.size - 1) + 1) =
      c.source.toList.take (stop + 1) := by
    rw [List.take_eq_take_iff, hlength]
    omega
  rw [Cursor.slice, Array.toList_extract, List.extract_eq_take_drop, ← List.drop_take, htake]

theorem slice? (h : w.Counts c) (start stop : UInt64) :
    w.slice? start stop = some (c.slice start.toNat stop.toNat) := by
  have hsize := h.size
  have hlt := w.size.toNat_lt
  rw [WordCursor.slice?]
  split
  · rename_i hnone
    rw [← UInt64.toNat_inj, UInt64.lt_iff_toNat_lt, UInt64.le_iff_toNat_le, UInt64.toNat_zero,
      hsize] at hnone
    rw [Cursor.slice_eq_empty (by omega)]
  · rename_i hsome
    rw [← UInt64.toNat_inj, UInt64.lt_iff_toNat_lt, UInt64.le_iff_toNat_le, UInt64.toNat_zero,
      hsize] at hsome
    obtain ⟨last, hlast, hlastValue⟩ := exists_word? (show c.size - 1 < 2 ^ 64 by omega)
    obtain ⟨behind, hbehind, hbehindValue⟩ :=
      exists_word? (show min stop.toNat (c.size - 1) + 1 < 2 ^ 64 by omega)
    have hbounds : start ≤ behind ∧ behind ≤ w.size := by
      rw [UInt64.le_iff_toNat_le, UInt64.le_iff_toNat_le, hsize]
      omega
    rw [hsize, ← Int.natCast_pred_of_pos (by omega), hlast, Option.bind_eq_bind, Option.bind_some,
      UInt64.toNat_min, hlastValue, ← Int.natCast_succ, hbehind, Option.bind_some,
      if_pos hbounds, h.source, hbehindValue, slice_extract c _ _ (by omega)]
    rfl

/-- No operation comes to a fault, and the answer is that of the cursor. -/
theorem step? (h : w.Counts c) (casing : Casing) (op : Cursor.Operation) :
    ∃ w', w.step? casing op = some (w', (c.step casing op).2) ∧ w'.Counts (c.step casing op).1 := by
  cases op with
  | look offset =>
    refine ⟨w, ?_, h⟩
    rw [WordCursor.step?, h.look?]
    rfl
  | advance =>
    obtain ⟨w', hw', hcounts⟩ := h.advance?
    refine ⟨w', ?_, hcounts⟩
    rw [WordCursor.step?, hw']
    rfl
  | seek index => exact ⟨w.seek index, rfl, h.seek index⟩
  | slice start stop =>
    refine ⟨w, ?_, h⟩
    rw [WordCursor.step?, h.slice?]
    rfl
  | index | mark => exact ⟨w, by rw [WordCursor.step?, h.index]; rfl, h⟩
  | size => exact ⟨w, by rw [WordCursor.step?, h.size]; rfl, h⟩
  | release marker => exact ⟨w, rfl, h⟩

theorem run? (h : w.Counts c) (casing : Casing) (ops : List Cursor.Operation) :
    ∃ w', w.run? casing ops = some (w', (c.run casing ops).2) ∧ w'.Counts (c.run casing ops).1 := by
  induction ops generalizing w c with
  | nil => exact ⟨w, rfl, h⟩
  | cons op ops ih =>
    obtain ⟨w', hw', h'⟩ := h.step? casing op
    obtain ⟨w'', hw'', h''⟩ := ih h'
    refine ⟨w'', ?_, h''⟩
    simp only [WordCursor.run?, hw', Option.bind_eq_bind, Option.bind_some, hw'']
    rfl

end Counts

end WordCursor

/-! ## All operations -/

/-- Whatever is done to a cursor on a text, its place stays in the text. Ahead and back it sees
the characters behind the place and before it, and none outside of the text; a slice has the
characters with an index in its interval, as far as the text reaches; and a mark leads back to
its place, whatever was done since. A reader that folds letters comes to the same place and has
the same answers, but that the characters it sees are folded. In words of a machine, down to
the least offset and up to the greatest index, nothing comes to a fault, and the answers are the
same. -/
theorem cursors_simulate (text : String) (ops : List Cursor.Operation) :
    let plain := (Cursor.ofString text).run .exact ops
    let folded := (Cursor.ofString text).run .folded ops
    let c := plain.1
    (c.index ≤ c.size ∧ c.size = text.length) ∧
    (folded.1 = c ∧ folded.2 = plain.2.map Cursor.Answer.folded) ∧
    (c.before = text.toList.take c.index ∧ c.behind = text.toList.drop c.index ∧
      c.look 0 = none ∧ ∀ n : Nat, c.look (n + 1) = c.behind[n]? ∧
        c.look (-(n + 1)) = c.before.reverse[n]?) ∧
    (∀ start stop : Nat, (stop < start → c.slice start stop = "") ∧
      ∀ i, (c.slice start stop).toList[i]? =
        if start + i ≤ stop then text.toList[start + i]? else none) ∧
    (∀ casing more, (c.run casing more).1.seek c.mark = c) ∧
    ∀ (h : text.length < 2 ^ 64) (casing : Casing), ∃ w,
      (WordCursor.ofString text h).run? casing ops =
        some (w, ((Cursor.ofString text).run casing ops).2) ∧
      w.index.toNat = c.index := by
  intro plain folded c
  have hsource : c.source.toList = text.toList := by
    rw [Cursor.source_run]
    rfl
  have hfolded : folded = (c, plain.2.map Cursor.Answer.folded) := Cursor.run_folded _ ops
  refine ⟨⟨c.index_le, ?_⟩, ⟨by rw [hfolded], by rw [hfolded]⟩, ⟨?_, ?_, c.look_zero, ?_⟩,
    ?_, ?_, ?_⟩
  · rw [Cursor.size, ← Array.length_toList, hsource, String.length_toList]
  · rw [Cursor.before, hsource]
  · rw [Cursor.behind, hsource]
  · exact fun n => ⟨c.look_ahead n, c.look_back n⟩
  · exact fun start stop => ⟨fun hlt => Cursor.slice_eq_empty (.inl hlt), fun i => by
      rw [Cursor.getElem?_slice, hsource]⟩
  · exact fun casing more => Cursor.seek_mark (Cursor.source_run casing c more)
  · intro h casing
    obtain ⟨w, hw, hcounts⟩ := (WordCursor.counts_ofString text h).run? casing ops
    refine ⟨w, hw, ?_⟩
    rw [hcounts.index]
    cases casing with
    | exact => rfl
    | folded => exact congrArg (fun r => r.1.index) hfolded

/-- The least offset and the greatest, a mark to come back to, and a slice up to the greatest
index. -/
def operationsAtLimits : List Cursor.Operation :=
  [.look .minValue, .look .maxValue, .advance, .mark, .advance, .advance, .index, .look 1,
    .look (-1), .seek 1, .release 7, .look 1, .slice 1 18446744073709551615, .slice 1 0, .size]

theorem cursors_simulate_limits :
    (∃ h : "AB".length < 2 ^ 64, ∃ w,
      (WordCursor.ofString "AB" h).run? .folded operationsAtLimits =
        some (w, [.seen none, .seen none, .moved, .number 1, .moved, .moved, .number 2, .seen none,
          .seen 'b', .moved, .moved, .seen 'b', .text "B", .text "", .number 2]) ∧
      w.index.toNat = 1) ∧
    0 < 1 ∧ ((Cursor.ofString "AB").run .exact operationsAtLimits).1.slice 1 0 = "" := by
  have h : "AB".length < 2 ^ 64 := by decide
  obtain ⟨-, -, -, hslices, -, hwords⟩ := cursors_simulate "AB" operationsAtLimits
  obtain ⟨w, hw, hindex⟩ := hwords h .folded
  have hanswers : ((Cursor.ofString "AB").run .folded operationsAtLimits).2 =
      [.seen none, .seen none, .moved, .number 1, .moved, .moved, .number 2, .seen none,
        .seen 'b', .moved, .moved, .seen 'b', .text "B", .text "", .number 2] := by
    decide +kernel
  have hplace : ((Cursor.ofString "AB").run .exact operationsAtLimits).1.index = 1 := by
    decide +kernel
  exact ⟨⟨h, w, by rw [hw, hanswers], hindex.trans hplace⟩, by decide,
    (hslices 1 0).1 (by decide)⟩

end ApexSyntax.Text
