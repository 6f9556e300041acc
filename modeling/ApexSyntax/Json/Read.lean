-- Reading JSON. Texts follow the strict grammar: no comments, no commas at the
-- end, and nothing behind the value but blanks.
import ApexSyntax.Json.Basic

namespace ApexSyntax.Json

/-! ## Characters -/

def isSpace (c : Char) : Bool := c == ' ' || c == '\n' || c == '\t' || c == '\r'

def skipSpace (cs : List Char) : List Char := cs.dropWhile isSpace

def isDigit (c : Char) : Bool := '0' ≤ c && c ≤ '9'

def hexValue? (c : Char) : Option Nat :=
  if isDigit c then some (c.toNat - 48)
  else if 'a' ≤ c ∧ c ≤ 'f' then some (c.toNat - 87)
  else if 'A' ≤ c ∧ c ≤ 'F' then some (c.toNat - 55)
  else none

def hexValues? : List Char → Option Nat := List.foldlM (fun n c => (hexValue? c).map (16 * n + ·)) 0

/-! ## Strings -/

/-- What one character or escape of a string stands for. -/
inductive Piece where
  | char (c : Char)
  /-- Half of a surrogate pair. -/
  | half (n : Nat)
  deriving DecidableEq, Repr

def Piece.ofNat (n : Nat) : Piece := if 0xd800 ≤ n ∧ n ≤ 0xdfff then half n else char (Char.ofNat n)

/-- The character of a short escape. -/
def shortEscape? : Char → Option Char
  | '"' => some '"'
  | '\\' => some '\\'
  | '/' => some '/'
  | 'b' => some '\x08'
  | 'f' => some '\x0c'
  | 'n' => some '\n'
  | 'r' => some '\r'
  | 't' => some '\t'
  | _ => none

/-- Reads a string behind its opening quote, up to the closing one. -/
def readPieces : List Char → Option (List Piece × List Char)
  | [] => none
  | '"' :: rest => some ([], rest)
  | '\\' :: 'u' :: a :: b :: c :: d :: rest => do
    let n ← hexValues? [a, b, c, d]
    let (pieces, rest) ← readPieces rest
    return (Piece.ofNat n :: pieces, rest)
  | '\\' :: e :: rest => do
    let c ← shortEscape? e
    let (pieces, rest) ← readPieces rest
    return (Piece.char c :: pieces, rest)
  | c :: rest =>
    if c.toNat < 0x20 then none
    else do
      let (pieces, rest) ← readPieces rest
      return (Piece.char c :: pieces, rest)

/-- The characters of some pieces. Halves have to come in pairs. -/
def characters? : List Piece → Option (List Char)
  | [] => some []
  | .char c :: rest => (characters? rest).map (c :: ·)
  | .half high :: .half low :: rest =>
    if high < 0xdc00 ∧ 0xdc00 ≤ low then
      (characters? rest).map (Char.ofNat (0x10000 + (high - 0xd800) * 0x400 + (low - 0xdc00)) :: ·)
    else none
  | .half _ :: _ => none

def text? (pieces : List Piece) : Option String := (characters? pieces).map String.ofList

def ofPieces (pieces : List Piece) : Json :=
  match text? pieces with
  | some t => string t
  | none => halfString

/-! ## Numbers -/

/-- Reads at least one digit. -/
def readDigits (cs : List Char) : Option (List Char × List Char) :=
  match cs.takeWhile isDigit with
  | [] => none
  | digits => some (digits, cs.dropWhile isDigit)

def readSign (allowed : Char → Bool) : List Char → List Char × List Char
  | [] => ([], [])
  | c :: rest => if allowed c then ([c], rest) else ([], c :: rest)

/-- Reads digits that start with a zero only where they end with it. -/
def readWhole : List Char → Option (List Char × List Char)
  | '0' :: rest => if (rest.head?.any isDigit) then none else some (['0'], rest)
  | cs => readDigits cs

def readFraction : List Char → Option (List Char × List Char)
  | '.' :: rest => (readDigits rest).map fun (ds, rest) => ('.' :: ds, rest)
  | cs => some ([], cs)

def readExponent : List Char → Option (List Char × List Char)
  | [] => some ([], [])
  | c :: rest =>
    if c = 'e' ∨ c = 'E' then do
      let (sign, rest) := readSign (fun c => c == '+' || c == '-') rest
      let (digits, rest) ← readDigits rest
      return (c :: sign ++ digits, rest)
    else some ([], c :: rest)

def readNumber (cs : List Char) : Option (Json × List Char) := do
  let (sign, rest) := readSign (· == '-') cs
  let (whole, rest) ← readWhole rest
  let (fraction, rest) ← readFraction rest
  let (exponent, rest) ← readExponent rest
  return (number (String.ofList (sign ++ whole ++ fraction ++ exponent)), rest)

/-! ## Values -/

/-- An object, unless one of its keys is no text. -/
def ofMembers (members : List (List Piece × Json)) : Json :=
  match members.mapM fun (key, value) => (text? key).map (·, value) with
  | some members => object members
  | none => halfObject

mutual

/-- Reads a value. The brackets and commas ahead of it are fewer than `fuel`. -/
def readValue : (fuel : Nat) → List Char → Option (Json × List Char)
  | 0, _ => none
  | fuel + 1, cs =>
    match skipSpace cs with
    | '"' :: rest => (readPieces rest).map fun (pieces, rest) => (ofPieces pieces, rest)
    | '[' :: rest =>
      match skipSpace rest with
      | ']' :: rest => some (array [], rest)
      | rest => (readItems fuel rest).map fun (items, rest) => (array items, rest)
    | '\x7b' :: rest =>
      match skipSpace rest with
      | '\x7d' :: rest => some (object [], rest)
      | rest => (readMembers fuel rest).map fun (members, rest) => (ofMembers members, rest)
    | 'n' :: 'u' :: 'l' :: 'l' :: rest => some (null, rest)
    | 't' :: 'r' :: 'u' :: 'e' :: rest => some (bool true, rest)
    | 'f' :: 'a' :: 'l' :: 's' :: 'e' :: rest => some (bool false, rest)
    | rest => readNumber rest

/-- Reads the items of an array up to its closing bracket. -/
def readItems : (fuel : Nat) → List Char → Option (List Json × List Char)
  | 0, _ => none
  | fuel + 1, cs =>
    match readValue fuel cs with
    | none => none
    | some (item, rest) =>
      match skipSpace rest with
      | ']' :: rest => some ([item], rest)
      | ',' :: rest => (readItems fuel rest).map fun (items, rest) => (item :: items, rest)
      | _ => none

/-- Reads the members of an object up to its closing brace. -/
def readMembers : (fuel : Nat) → List Char → Option (List (List Piece × Json) × List Char)
  | 0, _ => none
  | fuel + 1, cs =>
    match skipSpace cs with
    | '"' :: rest =>
      match readPieces rest with
      | none => none
      | some (key, rest) =>
        match skipSpace rest with
        | ':' :: rest =>
          match readValue fuel rest with
          | none => none
          | some (value, rest) =>
            match skipSpace rest with
            | '\x7d' :: rest => some ([(key, value)], rest)
            | ',' :: rest =>
              (readMembers fuel rest).map fun (members, rest) => ((key, value) :: members, rest)
            | _ => none
        | _ => none
    | _ => none

end

/-- The value of a text. -/
def read? (text : String) : Option Json :=
  let cs := text.toList
  match readValue (2 * cs.length + 2) cs with
  | some (v, rest) => if skipSpace rest = [] then some v else none
  | none => none

end ApexSyntax.Json
