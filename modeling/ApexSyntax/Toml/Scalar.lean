-- The words of TOML: strings in their four forms, numbers and dates.
import ApexSyntax.Toml.Basic

namespace ApexSyntax.Toml

/-! ## Characters -/

def isBlank (c : Char) : Bool := c == ' ' || c == '\t'

def isDigit (c : Char) : Bool := '0' ≤ c && c ≤ '9'

/-- Control characters stand in no text and no comment; a tab is none. -/
def isControl (c : Char) : Bool := (c.toNat < 0x20 && c != '\t') || c.toNat == 0x7f

def digitValue? (base : Nat) (c : Char) : Option Nat :=
  let v :=
    if isDigit c then c.toNat - 48
    else if 'a' ≤ c ∧ c ≤ 'f' then c.toNat - 87
    else if 'A' ≤ c ∧ c ≤ 'F' then c.toNat - 55
    else base
  if v < base then some v else none

/-- The value of some digits, of which there is at least one. -/
def natural? (base : Nat) : List Char → Option Nat
  | [] => none
  | cs => cs.foldlM (fun n c => (digitValue? base c).map (base * n + ·)) 0

/-! ## Strings -/

/-- Reads the digits of an escaped character. -/
def readCode (digits : Nat) (cs : List Char) : Option (Char × List Char) := do
  let n ← natural? 16 (cs.take digits)
  if (cs.take digits).length = digits ∧ n.isValidChar then
    return (Char.ofNat n, cs.drop digits)
  else none

/-- Reads an escape behind its backslash. -/
def readEscape : List Char → Option (Char × List Char)
  | 'b' :: rest => some ('\x08', rest)
  | 't' :: rest => some ('\t', rest)
  | 'n' :: rest => some ('\n', rest)
  | 'f' :: rest => some ('\x0c', rest)
  | 'r' :: rest => some ('\r', rest)
  | 'e' :: rest => some ('\x1b', rest)
  | '"' :: rest => some ('"', rest)
  | '\\' :: rest => some ('\\', rest)
  | 'x' :: rest => readCode 2 rest
  | 'u' :: rest => readCode 4 rest
  | 'U' :: rest => readCode 8 rest
  | _ => none

/-- Reads the closing quotes of a text of several lines. Up to two more quotes may
stand before them. -/
def readClosing (quote : Char) (cs : List Char) : Option (List Char × List Char) :=
  let quotes := cs.takeWhile (· = quote)
  if quotes.length ≤ 5 then some (quotes.drop 3, cs.dropWhile (· = quote)) else none

/-- Reads a string behind its opening quotes. With `lines` it may have several
lines, and ends at three quotes. A basic string has escapes, a literal one has
none. -/
def readString (quote : Char) (lines basic : Bool) :
    (fuel : Nat) → List Char → Option (List Char × List Char)
  | 0, _ => none
  | _ + 1, [] => none
  | fuel + 1, c :: rest =>
    let go (out : List Char) (rest : List Char) :=
      (readString quote lines basic fuel rest).map fun (more, rest) => (out ++ more, rest)
    if c = quote then
      if !lines then some ([], rest)
      else if rest.take 2 = [quote, quote] then readClosing quote (c :: rest)
      else go [c] rest
    else if c = '\\' ∧ basic then
      if lines ∧ (rest.dropWhile isBlank).head? = some '\n' then
        go [] (rest.dropWhile fun c => isBlank c || c == '\n')
      else
        match readEscape rest with
        | some (c, rest) => go [c] rest
        | none => none
    else if c = '\n' then if lines then go [c] rest else none
    else if isControl c then none
    else go [c] rest

/-- Reads a string with its opening quotes. Without `lines` it stays on one line. -/
def readQuoted (lines : Bool) : List Char → Option (String × List Char)
  | [] => none
  | quote :: rest =>
    if lines ∧ rest.take 2 = [quote, quote] then
      let body := rest.drop 2
      let body := if body.head? = some '\n' then body.tail else body
      (readString quote true (quote = '"') (body.length + 1) body).map fun (cs, rest) =>
        (String.ofList cs, rest)
    else
      (readString quote false (quote = '"') (rest.length + 1) rest).map fun (cs, rest) =>
        (String.ofList cs, rest)

/-! ## Numbers -/

/-- Digits without their underscores. Each of those stands between two digits. -/
def ungrouped? (base : Nat) (afterDigit : Bool) : List Char → Option (List Char)
  | [] => if afterDigit then some [] else none
  | c :: rest =>
    if c = '_' then if afterDigit then ungrouped? base false rest else none
    else if (digitValue? base c).isSome then (ungrouped? base true rest).map (c :: ·)
    else none

/-- Decimal digits that do not start with a needless zero. -/
def decimal? (cs : List Char) : Option Nat := do
  let digits ← ungrouped? 10 false cs
  if digits.head? = some '0' ∧ digits ≠ ['0'] then none else natural? 10 digits

def unsigned : List Char → List Char
  | '+' :: rest => rest
  | '-' :: rest => rest
  | cs => cs

def integer? : List Char → Option Int
  | '0' :: 'x' :: rest => (ungrouped? 16 false rest).bind (natural? 16) |>.map Int.ofNat
  | '0' :: 'o' :: rest => (ungrouped? 8 false rest).bind (natural? 8) |>.map Int.ofNat
  | '0' :: 'b' :: rest => (ungrouped? 2 false rest).bind (natural? 2) |>.map Int.ofNat
  | '-' :: rest => (decimal? rest).map fun n => -(n : Int)
  | '+' :: rest => (decimal? rest).map Int.ofNat
  | cs => (decimal? cs).map Int.ofNat

/-- The rest of a number, if it is a fraction, an exponent or both. -/
def isFractional (cs : List Char) : Bool :=
  let isE := fun c => c == 'e' || c == 'E'
  let fraction := cs.takeWhile fun c => !isE c
  let exponent := cs.dropWhile fun c => !isE c
  let fractionOk := match fraction with
    | [] => !exponent.isEmpty
    | c :: digits => c == '.' && (ungrouped? 10 false digits).isSome
  let exponentOk := match exponent with
    | [] => true
    | _ :: digits => (ungrouped? 10 false (unsigned digits)).isSome
  fractionOk && exponentOk

def isFloat (cs : List Char) : Bool :=
  let cs := unsigned cs
  if cs = ['i', 'n', 'f'] ∨ cs = ['n', 'a', 'n'] then true
  else
    let inWhole := fun c => isDigit c || c == '_'
    (decimal? (cs.takeWhile inWhole)).isSome && isFractional (cs.dropWhile inWhole)

/-! ## Dates -/

/-- Reads a number of exactly so many digits. -/
def readFixed (digits : Nat) (cs : List Char) : Option (Nat × List Char) :=
  let ds := cs.take digits
  if ds.length = digits ∧ ds.all isDigit then
    (natural? 10 ds).map fun n => (n, cs.drop digits)
  else none

def readMark (mark : Char) : List Char → Option (List Char)
  | [] => none
  | c :: rest => if c = mark then some rest else none

def daysOf (year month : Nat) : Nat :=
  if month = 2 then
    if year % 4 = 0 ∧ (year % 100 ≠ 0 ∨ year % 400 = 0) then 29 else 28
  else if month = 4 ∨ month = 6 ∨ month = 9 ∨ month = 11 then 30
  else 31

def readDate (cs : List Char) : Option (List Char) := do
  let (year, rest) ← readFixed 4 cs
  let (month, rest) ← readFixed 2 (← readMark '-' rest)
  let (day, rest) ← readFixed 2 (← readMark '-' rest)
  if 1 ≤ month ∧ month ≤ 12 ∧ 1 ≤ day ∧ day ≤ daysOf year month then return rest else none

/-- Reads the part of a time behind its seconds. -/
def readFraction : List Char → Option (List Char)
  | '.' :: rest => if rest.head?.any isDigit then some (rest.dropWhile isDigit) else none
  | rest => some rest

/-- Reads a time. The seconds may be left out. -/
def readTime (cs : List Char) : Option (List Char) := do
  let (hour, rest) ← readFixed 2 cs
  let (minute, rest) ← readFixed 2 (← readMark ':' rest)
  if 23 < hour ∨ 59 < minute then none
  else
    match rest with
    | ':' :: rest =>
      let (second, rest) ← readFixed 2 rest
      if 60 < second then none else readFraction rest
    | rest => return rest

/-- The rest of a date and time is a zone, or nothing. -/
def isZone : List Char → Bool
  | [] => true
  | ['Z'] => true
  | ['z'] => true
  | c :: rest =>
    (c == '+' || c == '-') &&
      (do
        let (hour, rest) ← readFixed 2 rest
        let (minute, rest) ← readFixed 2 (← readMark ':' rest)
        return decide (hour ≤ 23 ∧ minute ≤ 59 ∧ rest = [])).getD false

def isDateTime (cs : List Char) : Bool :=
  match readDate cs with
  | some [] => true
  | some (c :: rest) => (c == 'T' || c == 't' || c == ' ') && (readTime rest).any isZone
  | none => readTime cs == some []

/-! ## Scalars without quotes -/

def isScalarChar (c : Char) : Bool :=
  c.isAlphanum || c == '_' || c == '+' || c == '-' || c == '.' || c == ':'

/-- Reads the characters of a scalar. A blank between a date and a time is one of
them. -/
def readBare (cs : List Char) : List Char × List Char :=
  let bare := cs.takeWhile isScalarChar
  let rest := cs.dropWhile isScalarChar
  match rest with
  | ' ' :: d :: more =>
    if isDigit d ∧ readDate bare = some [] then
      (bare ++ ' ' :: (d :: more).takeWhile isScalarChar, (d :: more).dropWhile isScalarChar)
    else (bare, rest)
  | _ => (bare, rest)

/-- The value of a scalar without quotes. -/
def scalar? (cs : List Char) : Option Value :=
  if cs = "true".toList then some (.boolean true)
  else if cs = "false".toList then some (.boolean false)
  else
    match integer? cs with
    | some n => some (.integer n)
    | none =>
      if isFloat cs then some (.float (String.ofList cs))
      else if isDateTime cs then some (.dateTime (String.ofList cs))
      else none

end ApexSyntax.Toml
