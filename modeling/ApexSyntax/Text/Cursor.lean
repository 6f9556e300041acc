-- A text and a place in it. Reading looks any distance ahead or back without
-- moving, and may fold letters, so that keywords match however they are
-- written while the text itself stays as it is.
namespace ApexSyntax.Text

/-! ## Folding of letters -/

/-- The letters `A` to `Z` become small; every other character stays. -/
def foldChar (c : Char) : Char :=
  if 'A' ≤ c ∧ c ≤ 'Z' then Char.ofNat (c.toNat + 32) else c

def foldText (text : String) : String := text.map foldChar

/-- How characters are shown to a reader. -/
inductive Casing where
  | exact
  | folded
  deriving DecidableEq, Repr

def Casing.show : Casing → Char → Char
  | .exact, c => c
  | .folded, c => foldChar c

/-! ## Cursors -/

/-- A buffered text and the number of characters before the next one. -/
structure Cursor where
  source : Array Char
  index : Nat
  index_le : index ≤ source.size

namespace Cursor

def ofString (text : String) : Cursor := ⟨text.toList.toArray, 0, Nat.zero_le _⟩

def size (c : Cursor) : Nat := c.source.size

def text (c : Cursor) : String := String.ofList c.source.toList

/-- The character at a distance from the place: `1` is the next one, `-1` the
last one before. There is none at distance `0` or outside of the text. -/
def look (c : Cursor) : Int → Option Char
  | .ofNat 0 => none
  | .ofNat (n + 1) => c.source[c.index + n]?
  | .negSucc n => if n < c.index then c.source[c.index - (n + 1)]? else none

/-- Moves to an index, or to the end when the index lies beyond. -/
def seek (c : Cursor) (index : Nat) : Cursor :=
  ⟨c.source, min index c.source.size, Nat.min_le_right _ _⟩

/-- Moves behind the next character, if there is one. -/
def advance (c : Cursor) : Cursor := c.seek (c.index + 1)

/-- A mark is the index to go back to. The whole text is buffered, so marks
need not be given back. -/
def mark (c : Cursor) : Nat := c.index

/-- The characters from `start` up to and including `stop`, as far as the text
reaches. -/
def slice (c : Cursor) (start stop : Nat) : String :=
  String.ofList ((c.source.toList.take (stop + 1)).drop start)

/-- What a reader sees at a distance from the place. -/
def lookAs (casing : Casing) (c : Cursor) (offset : Int) : Option Char :=
  (c.look offset).map casing.show

/-! ## Laws of the cursor -/

@[simp] theorem size_seek (c : Cursor) (i : Nat) : (c.seek i).size = c.size := rfl

@[simp] theorem size_advance (c : Cursor) : c.advance.size = c.size := rfl

@[simp] theorem index_seek (c : Cursor) (i : Nat) : (c.seek i).index = min i c.size := rfl

/-- Going back to a mark restores the place. -/
theorem index_seek_mark (c d : Cursor) (h : d.source = c.source) :
    (d.seek c.mark).index = c.index := by
  simp [mark, seek, h, Nat.min_eq_left c.index_le]

end Cursor

end ApexSyntax.Text
