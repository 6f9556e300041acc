-- JSON values and their two written forms: on one line, and spread over lines
-- with two blanks for each level.
namespace ApexSyntax

/-! ## Values -/

/-- A JSON value. Numbers keep the digits they are written with, and members
of an object keep their order. -/
inductive Json where
  | null
  | bool (b : Bool)
  | number (written : String)
  | string (text : String)
  /-- A string whose escapes name half of a surrogate pair: well-formed, but
  no text. -/
  | halfString
  | array (items : List Json)
  | object (members : List (String × Json))
  /-- An object with a half string for a key. -/
  | halfObject

namespace Json

def ofNat (n : Nat) : Json := number (toString n)

/-! ## Strings -/

/-- One hexadecimal digit, in small letters. -/
def hexDigit (n : Nat) : Char := (Nat.digitChar n).toLower

/-- How one character stands inside a quoted string. Quotes, backslashes and
the characters below the blank are escaped, and nothing else. -/
def quotedChar (c : Char) : List Char :=
  if c = '"' then ['\\', '"']
  else if c = '\\' then ['\\', '\\']
  else if c = '\n' then ['\\', 'n']
  else if c = '\r' then ['\\', 'r']
  else if c = '\t' then ['\\', 't']
  else if c = '\x08' then ['\\', 'b']
  else if c = '\x0c' then ['\\', 'f']
  else if c.toNat < 0x20 then ['\\', 'u', '0', '0', hexDigit (c.toNat / 16), hexDigit (c.toNat % 16)]
  else [c]

def quote (text : String) : String :=
  String.ofList ('"' :: text.toList.flatMap quotedChar ++ ['"'])

/-! ## On one line -/

mutual

def compact : Json → String
  | null => "null"
  | bool b => if b then "true" else "false"
  | number written => written
  | string text => quote text
  | halfString => quote "\ufffd"
  | array items => "[" ++ compactItems true items ++ "]"
  | object members => "\x7b" ++ compactMembers true members ++ "\x7d"
  | halfObject => "\x7b\x7d"

/-- The items of an array, with a comma before each but the first. -/
def compactItems (first : Bool) : List Json → String
  | [] => ""
  | item :: rest => (if first then "" else ",") ++ compact item ++ compactItems false rest

def compactMembers (first : Bool) : List (String × Json) → String
  | [] => ""
  | (key, value) :: rest =>
    (if first then "" else ",") ++ quote key ++ ":" ++ compact value ++ compactMembers false rest

end

/-! ## Spread over lines -/

/-- A line break and the blanks of a level. -/
def lineAt (level : Nat) : String := "\n" ++ "".pushn ' ' (2 * level)

mutual

/-- The written form of a value that stands at a level. Empty arrays and
objects stay on one line. -/
def pretty (level : Nat) : Json → String
  | array [] => "[]"
  | array (item :: rest) =>
    "[" ++ lineAt (level + 1) ++ pretty (level + 1) item ++ prettyItems (level + 1) rest ++
      lineAt level ++ "]"
  | object [] => "\x7b\x7d"
  | object ((key, value) :: rest) =>
    "\x7b" ++ lineAt (level + 1) ++ quote key ++ ": " ++ pretty (level + 1) value ++
      prettyMembers (level + 1) rest ++ lineAt level ++ "\x7d"
  | null => "null"
  | bool b => if b then "true" else "false"
  | number written => written
  | string text => quote text
  | halfString => quote "\ufffd"
  | halfObject => "\x7b\x7d"

/-- The items of an array behind the first. -/
def prettyItems (level : Nat) : List Json → String
  | [] => ""
  | item :: rest => "," ++ lineAt level ++ pretty level item ++ prettyItems level rest

def prettyMembers (level : Nat) : List (String × Json) → String
  | [] => ""
  | (key, value) :: rest =>
    "," ++ lineAt level ++ quote key ++ ": " ++ pretty level value ++ prettyMembers level rest

end

end Json

end ApexSyntax
