-- UTF-8, read byte by byte. Bytes that belong to no character are found out as
-- soon as possible: each longest start of a character that breaks off counts as
-- one fault, and the byte that breaks it is read again.
namespace ApexSyntax.Text

/-- A character of which some bytes are still to come. The next one lies between
`low` and `high`. -/
structure PartialChar where
  value : Nat
  missing : Nat
  low : Nat
  high : Nat
  deriving DecidableEq, Repr

/-- What a first byte tells. -/
inductive FirstByte where
  | whole (c : Char)
  | start (p : PartialChar)
  | fault
  deriving DecidableEq, Repr

/-- The ranges of the second byte leave out longer forms than needed, halves of
surrogate pairs and values above the last character. -/
def firstByte (b : Nat) : FirstByte :=
  if b < 0x80 then .whole (Char.ofNat b)
  else if b < 0xc2 then .fault
  else if b < 0xe0 then .start ⟨b - 0xc0, 1, 0x80, 0xbf⟩
  else if b = 0xe0 then .start ⟨0, 2, 0xa0, 0xbf⟩
  else if b = 0xed then .start ⟨b - 0xe0, 2, 0x80, 0x9f⟩
  else if b < 0xf0 then .start ⟨b - 0xe0, 2, 0x80, 0xbf⟩
  else if b = 0xf0 then .start ⟨0, 3, 0x90, 0xbf⟩
  else if b < 0xf4 then .start ⟨b - 0xf0, 3, 0x80, 0xbf⟩
  else if b = 0xf4 then .start ⟨b - 0xf0, 3, 0x80, 0x8f⟩
  else .fault

/-- A byte where a character may start. -/
def decodeFirst (b : Nat) : List (Option Char) × Option PartialChar :=
  match firstByte b with
  | .whole c => ([some c], none)
  | .start p => ([], some p)
  | .fault => ([none], none)

/-- The characters and faults that a byte completes, and what it leaves open. -/
def decodeByte (p : Option PartialChar) (b : Nat) : List (Option Char) × Option PartialChar :=
  match p with
  | none => decodeFirst b
  | some p =>
    if p.low ≤ b ∧ b ≤ p.high then
      let value := p.value * 64 + (b - 0x80)
      if p.missing = 1 then ([some (Char.ofNat value)], none)
      else ([], some ⟨value, p.missing - 1, 0x80, 0xbf⟩)
    else
      let (out, next) := decodeFirst b
      (none :: out, next)

/-- The characters of some bytes, with `none` for each fault. -/
def decodeFrom (p : Option PartialChar) : List UInt8 → List (Option Char)
  | [] => if p.isSome then [none] else []
  | b :: rest =>
    let (out, next) := decodeByte p b.toNat
    out ++ decodeFrom next rest

def decode (bytes : List UInt8) : List (Option Char) := decodeFrom none bytes

/-- The text of some bytes, with a replacement character for each fault. -/
def ofBytes (bytes : List UInt8) : String :=
  String.ofList ((decode bytes).map fun c => c.getD '\ufffd')

/-- The text of some bytes without faults. -/
def ofBytes? (bytes : List UInt8) : Option String := ((decode bytes).mapM id).map String.ofList

/-- The bytes of a text. -/
def toBytes (text : String) : List UInt8 := text.toUTF8.data.toList

end ApexSyntax.Text
