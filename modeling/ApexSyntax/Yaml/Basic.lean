-- YAML values, and the place of a reader in a document. Columns are counted from
-- zero, because the layout of a document decides what belongs together.
namespace ApexSyntax.Yaml

inductive Value where
  /-- A scalar. Only plain ones can stand for more than their text. -/
  | scalar (plain : Bool) (text : String)
  | sequence (items : List Value)
  | mapping (pairs : List (Value × Value))
  deriving Repr

/-- What stands where a value is left out. -/
def Value.absent : Value := scalar true ""

/-- A place in a document. -/
structure Place where
  rest : List Char
  column : Nat
  /-- Nothing but blanks stands before this place on its line. -/
  fresh : Bool
  /-- The values that have a name so far. -/
  anchors : List (String × Value)
  deriving Repr

/-! ## Characters -/

def isBlank (c : Char) : Bool := c == ' ' || c == '\t'

/-- The list ends, or goes on with a blank or a line end. -/
def atGap : List Char → Bool
  | [] => true
  | c :: _ => isBlank c || c == '\n'

/-- Brackets, braces and commas have a meaning between brackets and braces. -/
def isFlowMark (c : Char) : Bool :=
  c == ',' || c == '[' || c == ']' || c == '\x7b' || c == '\x7d'

/-- Characters that no plain scalar starts with. -/
def isIndicator (c : Char) : Bool :=
  isFlowMark c || c == '-' || c == '?' || c == ':' || c == '#' || c == '&' || c == '*' ||
    c == '!' || c == '|' || c == '>' || c == '\x27' || c == '"' || c == '%' || c == '@' ||
    c == '\x60'

/-- Characters that a document may hold. -/
def isPrintable (c : Char) : Bool :=
  c == '\t' || c == '\n' || (0x20 ≤ c.toNat && c.toNat ≤ 0x7e) || c.toNat == 0x85 ||
    (0xa0 ≤ c.toNat && c.toNat ≤ 0xd7ff) ||
    (0xe000 ≤ c.toNat && c.toNat ≤ 0xfffd && c.toNat != 0xfeff) || 0x10000 ≤ c.toNat

/-- A mark between documents: three dashes or dots at the start of a line. -/
def atMark (c : Char) : List Char → Bool
  | a :: b :: d :: rest => a == c && b == c && d == c && atGap rest
  | _ => false

namespace Place

/-- Behind the next `n` characters, which hold no line end. -/
def skip (p : Place) (n : Nat) : Place :=
  { p with rest := p.rest.drop n, column := p.column + n, fresh := false }

/-- Behind a text that was read up to `rest`. -/
def goTo (p : Place) (rest : List Char) : Place :=
  let read := p.rest.take (p.rest.length - rest.length)
  let line := (read.reverse.takeWhile (· ≠ '\n')).length
  { p with
    rest
    column := if read.contains '\n' then line else p.column + line
    fresh := false }

def name (p : Place) (anchor : Option String) (v : Value) : Place :=
  match anchor with
  | some a => { p with anchors := (a, v) :: p.anchors }
  | none => p

/-- The end of the text, or a mark between documents. -/
def atEnd (p : Place) : Bool :=
  p.rest.isEmpty || (p.column == 0 && (atMark '-' p.rest || atMark '.' p.rest))

/-- Skips blanks, comments and line ends. A tab may not stand where a key could,
except between brackets. -/
def skipGapWithin (flow : Bool) : (fuel : Nat) → (tabs : Bool) → Place → Place
  | 0, _, p => p
  | fuel + 1, tabs, p =>
    match p.rest with
    | ' ' :: rest =>
      skipGapWithin flow fuel tabs { p with rest, column := p.column + 1 }
    | '\t' :: rest =>
      if flow || tabs then skipGapWithin flow fuel tabs { p with rest, column := p.column + 1 }
      else p
    | '#' :: rest =>
      let comment := rest.takeWhile (· ≠ '\n')
      skipGapWithin flow fuel tabs
        { p with rest := rest.dropWhile (· ≠ '\n'), column := p.column + 1 + comment.length }
    | '\n' :: rest =>
      skipGapWithin flow fuel flow { p with rest, column := 0, fresh := true }
    | _ => p

def skipGap (flow tabs : Bool) (p : Place) : Place :=
  p.skipGapWithin flow (p.rest.length + 1) tabs

end Place

end ApexSyntax.Yaml
