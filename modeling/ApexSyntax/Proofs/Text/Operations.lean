-- Operations on a cursor, one after the other. What they answer is told from the text alone, and
-- with letters folded it is the same, but for the characters that are seen.
import ApexSyntax.Text.Cursor

namespace ApexSyntax.Text.Cursor

/-! ## Before and behind the place -/

/-- The characters before the place. -/
def before (c : Cursor) : List Char := c.source.toList.take c.index

/-- The characters behind the place, the next one first. -/
def behind (c : Cursor) : List Char := c.source.toList.drop c.index

variable {c d : Cursor}

theorem look_zero (c : Cursor) : c.look 0 = none := rfl

theorem look_ahead (c : Cursor) (n : Nat) : c.look (n + 1) = c.behind[n]? := by
  have h : c.look (n + 1) = c.source[c.index + n]? := rfl
  rw [h, behind, List.getElem?_drop, Array.getElem?_toList]

theorem look_back (c : Cursor) (n : Nat) : c.look (-(n + 1)) = c.before.reverse[n]? := by
  have h : c.look (-(n + 1)) = if n < c.index then c.source[c.index - (n + 1)]? else none := rfl
  have hlength : c.before.length = c.index := by
    rw [before, List.length_take, Array.length_toList, Nat.min_eq_left c.index_le]
  rw [h]
  split
  · rw [List.getElem?_reverse (by omega), hlength, before, List.getElem?_take, if_pos (by omega),
      Array.getElem?_toList, Nat.sub_sub, Nat.add_comm 1]
  · rw [List.getElem?_eq_none (by rw [List.length_reverse]; omega)]

/-- A slice has the characters whose index is none of those left out. -/
theorem getElem?_slice (c : Cursor) (start stop i : Nat) :
    (c.slice start stop).toList[i]? =
      if start + i ≤ stop then c.source.toList[start + i]? else none := by
  simp only [slice, String.toList_ofList, List.getElem?_drop, List.getElem?_take, Nat.lt_succ_iff]

/-- There is nothing in an interval that ends before its start, or starts behind the text. -/
theorem slice_eq_empty {start stop : Nat} (h : stop < start ∨ c.size ≤ start) :
    c.slice start stop = "" := by
  have hlength : c.source.toList.length = c.size := Array.length_toList
  rw [slice, List.drop_of_length_le (by rw [List.length_take, hlength]; omega), String.ofList_nil]

/-- Wherever a cursor has gone in the text, a mark leads back. -/
theorem seek_mark (h : d.source = c.source) : d.seek c.mark = c := by
  rcases c with ⟨source, index, hle⟩
  rcases d with ⟨source', index', hle'⟩
  cases h
  simp [seek, mark, Nat.min_eq_left hle]

/-! ## Operations -/

/-- What is asked of a cursor. Offsets and indices are words of a machine. -/
inductive Operation where
  | look (offset : Int64)
  | advance
  | index
  | seek (index : UInt64)
  | mark
  | release (marker : UInt64)
  | size
  | slice (start stop : UInt64)

/-- What a cursor answers. -/
inductive Answer where
  | seen (c : Option Char)
  | number (n : Nat)
  | text (s : String)
  | moved
  deriving DecidableEq, Repr

/-- The answer of a reader that folds letters. Only what is seen changes. -/
def Answer.folded : Answer → Answer
  | seen c => seen (c.map foldChar)
  | a => a

/-- The cursor after an operation, and its answer. Nothing is to be done where a mark is given
back. -/
def step (casing : Casing) (c : Cursor) : Operation → Cursor × Answer
  | .look offset => (c, .seen (c.lookAs casing offset.toInt))
  | .advance => (c.advance, .moved)
  | .index => (c, .number c.index)
  | .seek index => (c.seek index.toNat, .moved)
  | .mark => (c, .number c.mark)
  | .release _ => (c, .moved)
  | .size => (c, .number c.size)
  | .slice start stop => (c, .text (c.slice start.toNat stop.toNat))

/-- The cursor after some operations, and their answers. -/
def run (casing : Casing) (c : Cursor) : List Operation → Cursor × List Answer
  | [] => (c, [])
  | op :: ops =>
    let (c', a) := c.step casing op
    let (c'', as) := c'.run casing ops
    (c'', a :: as)

theorem run_cons (casing : Casing) (c : Cursor) (op : Operation) (ops : List Operation) :
    c.run casing (op :: ops) =
      (((c.step casing op).1.run casing ops).1,
        (c.step casing op).2 :: ((c.step casing op).1.run casing ops).2) := rfl

/-- The text stays as it is. -/
theorem source_step (casing : Casing) (c : Cursor) (op : Operation) :
    (c.step casing op).1.source = c.source := by
  cases op <;> rfl

theorem source_run (casing : Casing) (c : Cursor) (ops : List Operation) :
    (c.run casing ops).1.source = c.source := by
  induction ops generalizing c with
  | nil => rfl
  | cons op ops ih => rw [run_cons, ih, source_step]

/-- Folding changes no place, and of the answers only what is seen. -/
theorem step_folded (c : Cursor) (op : Operation) :
    c.step .folded op = ((c.step .exact op).1, (c.step .exact op).2.folded) := by
  cases op with
  | look offset =>
    simp only [step, lookAs, Answer.folded, Option.map_map]
    rfl
  | advance | index | seek | mark | release | size | slice => rfl

theorem run_folded (c : Cursor) (ops : List Operation) :
    c.run .folded ops = ((c.run .exact ops).1, (c.run .exact ops).2.map Answer.folded) := by
  induction ops generalizing c with
  | nil => rfl
  | cons op ops ih => rw [run_cons, run_cons, step_folded, ih, List.map_cons]

end ApexSyntax.Text.Cursor
