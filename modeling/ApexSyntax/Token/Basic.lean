-- Tokens: pieces of a text with their kind and place.
import ApexSyntax.Text.OneLine
import ApexSyntax.Token.Kind

namespace ApexSyntax

/-- A piece of the text, or its end. -/
structure Token where
  kind : Kind
  /-- The piece as it is written; `<EOF>` for the end. -/
  text : String
  /-- The spelling of a word as the lexer saw it; empty for all other kinds. -/
  word : String
  /-- The line of the first character, counted from one. -/
  line : Nat
  /-- The column of the first character, counted from one. -/
  column : Nat
  /-- The number of characters before the piece. -/
  start : Nat
  /-- The number of characters in the piece; none for the end. -/
  length : Nat
  /-- The number of tokens before this one. -/
  index : Nat
  deriving DecidableEq, Repr

namespace Token

/-- The place of the last character, one before the start for the end. -/
def stop (t : Token) : Int := (t.start : Int) + t.length - 1

def isHidden (t : Token) : Bool := t.kind.isHidden

def isEof (t : Token) : Bool := t.kind == .eof

/-- The text between quotes, on one line. -/
def quoted (t : Token) : String := "'" ++ Text.oneLine t.text ++ "'"

/-- A name, or a keyword that serves as one. -/
def isIdentifier (t : Token) : Bool := t.kind == .identifier || t.kind.isSoftKeyword

/-- A name or any keyword. -/
def isWord (t : Token) : Bool := t.word != ""

/-- The token at the end of a text. -/
def endOfText (line column start index : Nat) : Token :=
  { kind := .eof, text := "<EOF>", word := "", line, column, start, length := 0, index }

@[simp] theorem kind_endOfText (line column start index : Nat) :
    (endOfText line column start index).kind = .eof := rfl

end Token

end ApexSyntax
