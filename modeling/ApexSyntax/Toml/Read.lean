-- Reading TOML documents line by line.
import ApexSyntax.Toml.Scalar

namespace ApexSyntax.Toml

/-! ## Between values -/

def skipBlanks (cs : List Char) : List Char := cs.dropWhile isBlank

/-- Skips a comment, up to the end of its line. -/
def skipComment? : List Char → Option (List Char)
  | '#' :: rest =>
    if (rest.takeWhile (· ≠ '\n')).any isControl then none else some (rest.dropWhile (· ≠ '\n'))
  | cs => some cs

/-- Skips blanks, comments and line ends. -/
def skipLines? : (fuel : Nat) → List Char → Option (List Char)
  | 0, _ => none
  | fuel + 1, cs =>
    match skipComment? (skipBlanks cs) with
    | some ('\n' :: rest) => skipLines? fuel rest
    | other => other

def skipGap? (cs : List Char) : Option (List Char) := skipLines? (cs.length + 1) cs

/-- Nothing but a comment stands before the end of the line. -/
def skipLineEnd? (cs : List Char) : Option (List Char) :=
  match skipComment? (skipBlanks cs) with
  | some [] => some []
  | some ('\n' :: rest) => some rest
  | _ => none

/-! ## Keys -/

def isKeyChar (c : Char) : Bool := c.isAlphanum || c == '_' || c == '-'

def readKey : List Char → Option (String × List Char)
  | [] => none
  | c :: rest =>
    if c = '"' ∨ c = '\x27' then readQuoted false (c :: rest)
    else
      match (c :: rest).takeWhile isKeyChar with
      | [] => none
      | key => some (String.ofList key, (c :: rest).dropWhile isKeyChar)

/-- Reads a key with its dots. -/
def readKeys : (fuel : Nat) → List Char → Option (List String × List Char)
  | 0, _ => none
  | fuel + 1, cs =>
    match readKey (skipBlanks cs) with
    | none => none
    | some (key, rest) =>
      match skipBlanks rest with
      | '.' :: rest => (readKeys fuel rest).map fun (keys, rest) => (key :: keys, rest)
      | rest => some ([key], rest)

/-! ## Values -/

mutual

def readValue : (fuel : Nat) → List Char → Option (Value × List Char)
  | 0, _ => none
  | fuel + 1, cs =>
    match cs with
    | '[' :: rest => (readItems fuel rest).map fun (items, rest) => (.array items, rest)
    | '\x7b' :: rest => (readPairs fuel [] rest).map fun (t, rest) => (.table .inline t, rest)
    | '"' :: _ => (readQuoted true cs).map fun (s, rest) => (.string s, rest)
    | '\x27' :: _ => (readQuoted true cs).map fun (s, rest) => (.string s, rest)
    | cs =>
      let (bare, rest) := readBare cs
      (scalar? bare).map fun v => (v, rest)

/-- Reads the items of an array up to its closing bracket. -/
def readItems : (fuel : Nat) → List Char → Option (List Value × List Char)
  | 0, _ => none
  | fuel + 1, cs =>
    match skipGap? cs with
    | none => none
    | some (']' :: rest) => some ([], rest)
    | some rest =>
      match readValue fuel rest with
      | none => none
      | some (item, rest) =>
        match skipGap? rest with
        | some (']' :: rest) => some ([item], rest)
        | some (',' :: rest) =>
          (readItems fuel rest).map fun (items, rest) => (item :: items, rest)
        | _ => none

/-- Reads the pairs of a table in braces up to the closing one. -/
def readPairs : (fuel : Nat) → Table → List Char → Option (Table × List Char)
  | 0, _, _ => none
  | fuel + 1, t, cs =>
    match skipGap? cs with
    | none => none
    | some ('\x7d' :: rest) => some (t, rest)
    | some rest =>
      match readKeys (rest.length + 1) rest with
      | some (keys, '=' :: rest) =>
        match readValue fuel (skipBlanks rest) with
        | none => none
        | some (v, rest) =>
          match t.add keys v, skipGap? rest with
          | some t, some ('\x7d' :: rest) => some (t, rest)
          | some t, some (',' :: rest) => readPairs fuel t rest
          | _, _ => none
      | _ => none

end

/-! ## Documents -/

/-- Reads one line that is not empty. -/
def readLine (cs : List Char) : Option (Line × List Char) :=
  match cs with
  | '[' :: '[' :: rest =>
    match readKeys (rest.length + 1) rest with
    | some (keys, ']' :: ']' :: rest) =>
      (skipLineEnd? rest).map fun rest => (.header (.tables keys), rest)
    | _ => none
  | '[' :: rest =>
    match readKeys (rest.length + 1) rest with
    | some (keys, ']' :: rest) =>
      (skipLineEnd? rest).map fun rest => (.header (.table keys), rest)
    | _ => none
  | cs =>
    match readKeys (cs.length + 1) cs with
    | some (keys, '=' :: rest) =>
      match readValue (rest.length + 1) (skipBlanks rest) with
      | some (v, rest) => (skipLineEnd? rest).map fun rest => (.pair keys v, rest)
      | none => none
    | _ => none

def readAllLines : (fuel : Nat) → List Char → Option (List Line)
  | 0, _ => none
  | fuel + 1, cs =>
    match skipGap? cs with
    | none => none
    | some [] => some []
    | some rest =>
      match readLine rest with
      | none => none
      | some (line, rest) => (readAllLines fuel rest).map (line :: ·)

/-- Line ends of two characters become one. -/
def joinLineEnds : List Char → List Char
  | '\r' :: '\n' :: rest => '\n' :: joinLineEnds rest
  | c :: rest => c :: joinLineEnds rest
  | [] => []

/-- The table of a document. -/
def read? (text : String) : Option Table := do
  let cs := joinLineEnds text.toList
  let cs := if cs.head? = some '\ufeff' then cs.tail else cs
  let lines ← readAllLines (cs.length + 1) cs
  tableOf [] [] lines

end ApexSyntax.Toml
