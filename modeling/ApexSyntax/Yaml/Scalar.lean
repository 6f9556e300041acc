-- The scalars of YAML: plain, quoted, and in blocks. Line ends inside a scalar
-- fold into blanks, unless the block is a literal one.
import ApexSyntax.Yaml.Basic

namespace ApexSyntax.Yaml

/-! ## Folding -/

/-- What some line ends in a row fold into. -/
def folded (lineEnds : Nat) : List Char :=
  if lineEnds = 1 then [' '] else List.replicate (lineEnds - 1) '\n'

/-- The blanks and line ends ahead: how many line ends, and what follows. -/
def splitLayout (cs : List Char) : Nat × List Char :=
  let layout := cs.takeWhile fun c => isBlank c || c == '\n'
  ((layout.filter (· = '\n')).length, cs.drop layout.length)

/-! ## Plain scalars -/

/-- A plain scalar can start here. -/
def startsPlain (flow : Bool) : List Char → Bool
  | [] => false
  | c :: rest =>
    if isBlank c || c == '\n' then false
    else if !isIndicator c then true
    else if c == '-' then !(rest.head?.any isBlank)
    else (c == '?' || c == ':') && !flow && !atGap rest

/-- The characters of a plain scalar up to the next blank or its end. -/
def plainWord (flow : Bool) : List Char → List Char
  | [] => []
  | c :: rest =>
    if isBlank c || c == '\n' then []
    else if c == ':' && (atGap rest || (flow && (rest.head?.any isFlowMark))) then []
    else if flow && isFlowMark c then []
    else c :: plainWord flow rest

/-- Reads a plain scalar. It goes on behind a gap when another word stands there,
on a later line only from the column `least` on. -/
def readPlainWords (flow lines : Bool) (least : Nat) :
    (fuel : Nat) → Place → List Char × Place
  | 0, p => ([], p)
  | fuel + 1, p =>
    let word := plainWord flow p.rest
    let behind := p.skip word.length
    let layout := behind.rest.takeWhile fun c => isBlank c || c == '\n'
    let (lineEnds, rest) := splitLayout behind.rest
    let next := behind.goTo rest
    let goesOn :=
      !rest.isEmpty && rest.head? != some '#' && !(plainWord flow rest).isEmpty &&
        (lineEnds == 0 || (lines && !next.atEnd && (flow || least ≤ next.column)))
    if goesOn then
      let (more, last) := readPlainWords flow lines least fuel next
      (word ++ (if lineEnds = 0 then layout else folded lineEnds) ++ more, last)
    else (word, behind)

def readPlain (flow lines : Bool) (least : Nat) (p : Place) : Value × Place :=
  let (cs, last) := readPlainWords flow lines least (p.rest.length + 1) p
  (.scalar true (String.ofList cs), { last with fresh := false })

/-! ## Quoted scalars -/

def hexDigit? (c : Char) : Option Nat :=
  if '0' ≤ c ∧ c ≤ '9' then some (c.toNat - 48)
  else if 'a' ≤ c ∧ c ≤ 'f' then some (c.toNat - 87)
  else if 'A' ≤ c ∧ c ≤ 'F' then some (c.toNat - 55)
  else none

def readCode (digits : Nat) (cs : List Char) : Option (Char × List Char) := do
  let ds := cs.take digits
  let n ← ds.foldlM (fun n c => (hexDigit? c).map (16 * n + ·)) 0
  if ds.length = digits ∧ n.isValidChar then return (Char.ofNat n, cs.drop digits) else none

/-- Reads an escape behind its backslash. -/
def readEscape : List Char → Option (Char × List Char)
  | '0' :: rest => some ('\x00', rest)
  | 'a' :: rest => some ('\x07', rest)
  | 'b' :: rest => some ('\x08', rest)
  | 't' :: rest => some ('\t', rest)
  | '\t' :: rest => some ('\t', rest)
  | 'n' :: rest => some ('\n', rest)
  | 'v' :: rest => some ('\x0b', rest)
  | 'f' :: rest => some ('\x0c', rest)
  | 'r' :: rest => some ('\r', rest)
  | 'e' :: rest => some ('\x1b', rest)
  | ' ' :: rest => some (' ', rest)
  | '"' :: rest => some ('"', rest)
  | '/' :: rest => some ('/', rest)
  | '\\' :: rest => some ('\\', rest)
  | 'N' :: rest => some ('\u0085', rest)
  | '_' :: rest => some ('\u00a0', rest)
  | 'L' :: rest => some ('\u2028', rest)
  | 'P' :: rest => some ('\u2029', rest)
  | 'x' :: rest => readCode 2 rest
  | 'u' :: rest => readCode 4 rest
  | 'U' :: rest => readCode 8 rest
  | _ => none

/-- Reads a quoted scalar behind its opening quote. Blanks around a line end go,
and the line ends fold. Only double quotes have escapes. -/
def readQuotedText (quote : Char) : (fuel : Nat) → List Char → Option (List Char × List Char)
  | 0, _ => none
  | _ + 1, [] => none
  | fuel + 1, c :: rest =>
    let go (out : List Char) (rest : List Char) :=
      (readQuotedText quote fuel rest).map fun (more, rest) => (out ++ more, rest)
    if c = quote then
      if quote = '\x27' ∧ rest.head? = some quote then go [quote] rest.tail else some ([], rest)
    else if c = '\\' ∧ quote = '"' then
      if rest.head? = some '\n' then
        let (lineEnds, rest) := splitLayout rest
        go (List.replicate (lineEnds - 1) '\n') rest
      else
        match readEscape rest with
        | some (c, rest) => go [c] rest
        | none => none
    else if isBlank c || c == '\n' then
      let (lineEnds, after) := splitLayout (c :: rest)
      if lineEnds = 0 then go [c] rest
      else if atMark '-' after || atMark '.' after then none
      else go (folded lineEnds) after
    else go [c] rest

def readQuoted (p : Place) : Option (Value × Place) :=
  match p.rest with
  | [] => none
  | quote :: rest =>
    (readQuotedText quote (rest.length + 1) rest).map fun (cs, rest) =>
      (.scalar false (String.ofList cs), p.goTo rest)

/-! ## Blocks -/

/-- What becomes of the line ends at the end of a block. -/
inductive Chomping where
  | strip
  | clip
  | keep
  deriving DecidableEq, Repr

/-- Reads what stands behind the mark of a block: the chomping and the number of
columns that the block stands deeper, in either order. -/
def readBlockMarks : (fuel : Nat) → Chomping → Option Nat → List Char →
    Chomping × Option Nat × List Char
  | 0, chomping, deeper, cs => (chomping, deeper, cs)
  | fuel + 1, chomping, deeper, cs =>
    match cs with
    | '-' :: rest => readBlockMarks fuel .strip deeper rest
    | '+' :: rest => readBlockMarks fuel .keep deeper rest
    | c :: rest =>
      if '1' ≤ c ∧ c ≤ '9' then readBlockMarks fuel chomping (some (c.toNat - 48)) rest
      else (chomping, deeper, cs)
    | [] => (chomping, deeper, cs)

def spaces (line : List Char) : Nat := (line.takeWhile (· = ' ')).length

def isEmptyLine (line : List Char) : Bool := line.all (· = ' ')

/-- The lines of a text, without their line ends. -/
def linesOf : List Char → List (List Char)
  | [] => [[]]
  | c :: rest =>
    if c = '\n' then [] :: linesOf rest
    else
      match linesOf rest with
      | [] => [[c]]
      | line :: lines => (c :: line) :: lines

/-- Joins the lines of a folded block. Lines that start with a blank keep the line
ends around them. -/
def foldLines (before : Bool) (gap : Nat) : List (List Char) → List Char
  | [] => []
  | line :: rest =>
    if line.isEmpty then foldLines before (gap + 1) rest
    else
      let unindented := !(line.head?.any isBlank)
      let join := if before ∧ unindented ∧ gap ≠ 0 then folded gap else List.replicate gap '\n'
      join ++ line ++ foldLines unindented 1 rest

/-- The text of a block's lines before the line ends at its end. -/
def blockBody (literal : Bool) (lines : List (List Char)) : List Char :=
  if literal then (lines.intersperse ['\n']).flatten else foldLines false 0 lines

/-- Reads a block whose mark stands at a place. Its lines stand at the column
`least` at least. -/
def readBlock (least : Nat) (p : Place) : Option (Value × Place) :=
  match p.rest with
  | [] => none
  | mark :: rest =>
    let (chomping, deeper, rest) := readBlockMarks 2 .clip none rest
    let head := rest.takeWhile (· ≠ '\n')
    let tail := head.dropWhile isBlank
    if !(tail.isEmpty || tail.head? == some '#') then none
    else
      let lines := linesOf ((rest.dropWhile (· ≠ '\n')).drop 1)
      let first := (lines.find? (!isEmptyLine ·)).map spaces
      let column :=
        match deeper with
        | some n => least - 1 + n
        | none => max (max (first.getD 0) least) 1
      let own := lines.takeWhile fun line => isEmptyLine line || column ≤ spaces line
      let others := lines.drop own.length
      let body := own.map (·.drop column)
      let trimmed := (body.reverse.dropWhile (·.isEmpty)).reverse
      let ends := body.length - trimmed.length - (if others.isEmpty then 1 else 0)
      let text := blockBody (mark = '|') trimmed
      let tail :=
        match chomping with
        | .strip => []
        | .clip => if trimmed.isEmpty then [] else ['\n']
        | .keep => List.replicate (if trimmed.isEmpty then ends else ends + 1) '\n'
      let rest := (others.intersperse ['\n']).flatten
      some (.scalar false (String.ofList (text ++ tail)),
        { p with rest, column := 0, fresh := true })

end ApexSyntax.Yaml
