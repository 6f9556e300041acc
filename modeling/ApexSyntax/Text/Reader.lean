-- Reading a text from its start to its end, a few characters at a time. What
-- is seen of the rest may be folded; what is taken comes as it is written.
import ApexSyntax.Text.Cursor

namespace ApexSyntax.Text

/-- A cursor together with what is seen of the text behind it. -/
structure Reader where
  casing : Casing
  cursor : Cursor
  rest : List Char
  rest_eq : rest = (cursor.source.toList.drop cursor.index).map casing.show

namespace Reader

def ofString (casing : Casing) (text : String) : Reader :=
  ⟨casing, Cursor.ofString text, text.toList.map casing.show, by simp [Cursor.ofString]⟩

/-- The number of characters that are still to be read. -/
def left (r : Reader) : Nat := r.cursor.size - r.cursor.index

/-- The next `n` characters as they are written. -/
def peek (r : Reader) (n : Nat) : String :=
  String.ofList (r.cursor.source.extract r.cursor.index (r.cursor.index + n)).toList

theorem rest_seek (r : Reader) (n : Nat) :
    r.rest.drop n = ((r.cursor.seek (r.cursor.index + n)).source.toList.drop
      (r.cursor.seek (r.cursor.index + n)).index).map r.casing.show := by
  rw [r.rest_eq, ← List.map_drop, List.drop_drop]
  congr 1
  simp only [Cursor.seek]
  by_cases h : r.cursor.index + n ≤ r.cursor.source.size
  · rw [Nat.min_eq_left h]
  · have h' : r.cursor.source.size ≤ r.cursor.index + n := by omega
    rw [Nat.min_eq_right h', List.drop_of_length_le (by simpa using h'),
      List.drop_of_length_le (by simp)]

/-- Moves behind the next `n` characters. -/
def skip (r : Reader) (n : Nat) : Reader where
  casing := r.casing
  cursor := r.cursor.seek (r.cursor.index + n)
  rest := r.rest.drop n
  rest_eq := r.rest_seek n

/-! ## Laws -/

theorem length_rest (r : Reader) : r.rest.length = r.left := by
  rw [r.rest_eq]; simp [left, Cursor.size]

@[simp] theorem casing_skip (r : Reader) (n : Nat) : (r.skip n).casing = r.casing := rfl

@[simp] theorem source_skip (r : Reader) (n : Nat) :
    (r.skip n).cursor.source = r.cursor.source := rfl

@[simp] theorem rest_skip (r : Reader) (n : Nat) : (r.skip n).rest = r.rest.drop n := rfl

theorem left_skip (r : Reader) (n : Nat) : (r.skip n).left = r.left - n := by
  simp [← length_rest]

end Reader

end ApexSyntax.Text
