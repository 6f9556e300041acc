-- The lexical grammar: which characters at the start of a text make one token.
-- Every decision looks at the characters as the reader shows them, so over a
-- folded text a keyword matches in any spelling.
import ApexSyntax.Text.Alphabetic
import ApexSyntax.Token.Kind

namespace ApexSyntax

open Text

/-! ## Classes of characters -/

def isBlank (c : Char) : Bool :=
  c == ' ' || c == '\t' || c == '\r' || c == '\n' || c == '\x0c'

def isLineEnd (c : Char) : Bool := c == '\n' || c == '\r'

/-- The quote around a string. -/
def isQuote (c : Char) : Bool := c == '\x27'

/-- The number of leading characters in a class. -/
def spanLength (p : Char → Bool) (cs : List Char) : Nat := (cs.takeWhile p).length

/-! ## Comments and strings -/

/-- Reads a block comment of which `n` characters are read, up to its first
closing mark. -/
def commentEnd? (n : Nat) : List Char → Option Nat
  | '*' :: '/' :: _ => some (n + 2)
  | _ :: rest => commentEnd? (n + 1) rest
  | [] => none

/-- How far a string reaches. -/
inductive StringEnd where
  | closed (length : Nat)
  /-- The line or the text ends before the closing quote. -/
  | open (length : Nat)
  deriving DecidableEq, Repr

/-- Reads a string of which `n` characters are read. A backslash takes the
character behind it along, unless the line ends there. -/
def stringEnd (n : Nat) : List Char → StringEnd
  | [] => .open n
  | [c] => if isQuote c then .closed (n + 1) else if isLineEnd c then .open n else .open (n + 1)
  | c :: d :: rest =>
    if isQuote c then .closed (n + 1)
    else if isLineEnd c then .open n
    else if c = '\\' then if isLineEnd d then .open (n + 1) else stringEnd (n + 2) rest
    else stringEnd (n + 1) (d :: rest)

/-! ## Numbers and dates -/

def isDigit (c : Char) : Bool := '0' ≤ c && c ≤ '9'

/-- The text starts with a digit. -/
def startsWithDigit : List Char → Bool
  | c :: _ => isDigit c
  | [] => false

/-- The text goes on with a word. -/
def startsWithWordPart : List Char → Bool
  | c :: _ => isWordPart c
  | [] => false

/-- The month and the day behind a year: `-dd-dd`. -/
def startsWithMonthAndDay : List Char → Bool
  | '-' :: a :: b :: '-' :: c :: d :: _ => isDigit a && isDigit b && isDigit c && isDigit d
  | _ => false

def isClockPart (c : Char) : Bool := isDigit c || c == ':' || c == '.'

def isOffsetPart (c : Char) : Bool := isDigit c || c == ':'

/-- The length of the zone behind a time of day: `z`, or a sign and an offset. -/
def zoneLength : List Char → Nat
  | 'z' :: _ => 1
  | c :: rest =>
    if (c = '+' ∨ c = '-') ∧ startsWithDigit rest then 1 + spanLength isOffsetPart rest else 0
  | [] => 0

/-- The length of the time of day behind a date: `t`, the clock and a zone. -/
def timeLength : List Char → Nat
  | 't' :: rest =>
    if startsWithDigit rest then
      let clock := spanLength isClockPart rest
      1 + clock + zoneLength (rest.drop clock)
    else 0
  | _ => 0

/-- The length of the point and the digits behind a whole number. -/
def fractionLength : List Char → Nat
  | '.' :: rest => if startsWithDigit rest then 1 + spanLength isDigit rest else 0
  | _ => 0

/-- The text starts with a letter that no word goes on behind. -/
def startsWithSuffix (letter : Char) : List Char → Bool
  | c :: rest => c == letter && !startsWithWordPart rest
  | [] => false

/-- Reads a number or a date. -/
def numberLexeme (cs : List Char) : Literal × Nat :=
  let whole := spanLength isDigit cs
  let tail := cs.drop whole
  if whole = 4 ∧ startsWithMonthAndDay tail then (.date, 10 + timeLength (tail.drop 6))
  else
    let fraction := fractionLength tail
    let size := whole + fraction
    let tail := tail.drop fraction
    if fraction = 0 ∧ startsWithSuffix 'l' tail then (.long, size + 1)
    else if startsWithSuffix 'd' tail then (.number, size + 1)
    else if fraction = 0 then (.integer, size)
    else (.number, size)

/-! ## Words -/

/-- What follows the word `system` in the keyword `system.runas`. -/
def startsWithRunAs : List Char → Bool
  | '.' :: 'r' :: 'u' :: 'n' :: 'a' :: 's' :: rest => !startsWithWordPart rest
  | _ => false

/-- Reads a word. -/
def wordLexeme (cs : List Char) : Kind × Nat :=
  let size := spanLength isWordPart cs
  let word := String.ofList (cs.take size)
  if word = "system" ∧ startsWithRunAs (cs.drop size) then
    (.keyword .systemRunAsKw, size + 6)
  else
    match Keyword.ofWord? word with
    | some k => (.keyword k, size)
    | none => (.identifier, size)

/-! ## Marks -/

/-- All marks with their characters, the longest first. -/
def markTable : List (List Char × Mark) :=
  [4, 3, 2, 1].flatMap fun n =>
    (Mark.all.map fun m => (m.spelling.toList, m)).filter fun e => e.1.length == n

/-- The longest mark that the text starts with, and its length. -/
def markLexeme? (cs : List Char) : Option (Mark × Nat) :=
  (markTable.find? fun e => e.1.isPrefixOf cs).map fun e => (e.2, e.1.length)

/-! ## The next token -/

/-- What the characters at the start of a text are. -/
inductive Lexeme where
  /-- A token of some length. -/
  | token (kind : Kind) (length : Nat)
  /-- No token. A message shows the first `shown` characters, and reading goes
  on behind the first `skipped` ones. -/
  | unreadable (shown skipped : Nat)
  deriving DecidableEq, Repr

namespace Lexeme

/-- The number of characters that are read. -/
def size : Lexeme → Nat
  | token _ length => length
  | unreadable _ skipped => skipped

/-- Reads what starts with the character `c`. A block comment without an end is
skipped as a whole; of a string without an end only its quote is skipped. -/
def scan (c : Char) (rest : List Char) : Lexeme :=
  if isBlank c then token .blank (1 + spanLength isBlank rest)
  else if c = '/' ∧ rest.head? = some '/' then
    token .comment (1 + spanLength (fun d => !isLineEnd d) rest)
  else if c = '/' ∧ rest.head? = some '*' then
    match commentEnd? 2 rest.tail with
    | some n => token .comment n
    | none => unreadable (1 + rest.length) (1 + rest.length)
  else if isQuote c then
    match stringEnd 1 rest with
    | .closed n => token (.literal .string) n
    | .open n => unreadable n 1
  else if isDigit c ∨ (c = '.' ∧ startsWithDigit rest) then
    let (form, n) := numberLexeme (c :: rest)
    token (.literal form) n
  else if isWordStart c then
    let (kind, n) := wordLexeme (c :: rest)
    token kind n
  else
    match markLexeme? (c :: rest) with
    | some (m, n) => token (.mark m) n
    | none => unreadable 1 1

/-- Something is skipped whenever there is no token. -/
theorem skipped_pos {c : Char} {rest : List Char} {shown skipped : Nat}
    (h : scan c rest = unreadable shown skipped) : 0 < skipped := by
  unfold scan at h
  repeat' split at h
  all_goals first
    | contradiction
    | (injection h with _ h; omega)

end Lexeme

/-- Words are read for names and keywords. -/
def Kind.isWord : Kind → Bool
  | .identifier | .keyword _ => true
  | _ => false

end ApexSyntax
