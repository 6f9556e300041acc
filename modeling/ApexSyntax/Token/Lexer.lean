-- The lexer: takes token after token from a text, counts lines and columns,
-- and hands what is no token to its listeners.
import ApexSyntax.Listener
import ApexSyntax.Text.Reader
import ApexSyntax.Token.Basic
import ApexSyntax.Token.Lexeme

namespace ApexSyntax

open Text

/-! ## Places -/

/-- A line and a column, both counted from one. -/
structure Place where
  line : Nat
  column : Nat
  deriving DecidableEq, Repr

namespace Place

def start : Place := ⟨1, 1⟩

/-- The place behind a character. Only a line feed ends a line. -/
def after (p : Place) (c : Char) : Place :=
  if c = '\n' then ⟨p.line + 1, 1⟩ else ⟨p.line, p.column + 1⟩

/-- The place behind some characters. -/
def afterAll (p : Place) (cs : List Char) : Place := cs.foldl after p

@[simp] theorem afterAll_nil (p : Place) : p.afterAll [] = p := rfl

end Place

/-! ## The lexer -/

structure Lexer where
  reader : Reader
  /-- The place of the next character. -/
  place : Place
  listeners : List Listener
  /-- The number of errors so far, heard or not. -/
  errorCount : Nat
  /-- The end of the text was handed out. -/
  done : Bool

namespace Lexer

/-- A lexer at the start of a text, without listeners. -/
def ofString (casing : Casing) (text : String) : Lexer :=
  { reader := Reader.ofString casing text, place := .start, listeners := [], errorCount := 0,
    done := false }

def index (l : Lexer) : Nat := l.reader.cursor.index

def addListener (l : Lexer) (listener : Listener) : Lexer :=
  { l with listeners := l.listeners ++ [listener] }

def removeListeners (l : Lexer) : Lexer := { l with listeners := [] }

/-- Moves behind the next `n` characters. -/
def skip (l : Lexer) (n : Nat) : Lexer :=
  { l with reader := l.reader.skip n, place := l.place.afterAll (l.reader.rest.take n) }

/-- The token made of the next `n` characters. -/
def tokenOf (l : Lexer) (kind : Kind) (n : Nat) : Token :=
  { kind, text := l.reader.peek n,
    word := if kind.isWord then String.ofList (l.reader.rest.take n) else "",
    line := l.place.line, column := l.place.column, start := l.index, length := n, index := 0 }

/-- The token at the end of the text. -/
def eofToken (l : Lexer) : Token := .endOfText l.place.line l.place.column l.index 0

/-- The error about the next `n` characters. -/
def unreadableError (l : Lexer) (n : Nat) : SyntaxError :=
  { line := l.place.line, column := l.place.column,
    message := "token recognition error at: '" ++ oneLine (l.reader.peek n) ++ "'" }

/-- The lexer after its listeners have heard an error. -/
def report (l : Lexer) (e : SyntaxError) : Lexer :=
  { l with listeners := Listener.hearAll e l.listeners, errorCount := l.errorCount + 1 }

/-- Reads a token, at most `fuel` times past something unreadable. When a
listener throws, the lexer stands behind what it threw at. -/
def nextWithin : Nat → Lexer → Lexer × Except SyntaxError Token
  | 0, l => ({ l with done := true }, .ok l.eofToken)
  | fuel + 1, l =>
    match l.reader.rest with
    | [] => ({ l with done := true }, .ok l.eofToken)
    | c :: rest =>
      match Lexeme.scan c rest with
      | .token kind n => (l.skip n, .ok (l.tokenOf kind n))
      | .unreadable shown skipped =>
        let e := l.unreadableError shown
        let l' := (l.skip skipped).report e
        if Listener.stopsAt l.listeners then (l', .error e) else nextWithin fuel l'

/-- The next token, hidden ones included; at the end of the text, always the
end. Every unreadable piece shortens the rest, so the rest bounds their number. -/
def next (l : Lexer) : Lexer × Except SyntaxError Token := nextWithin l.reader.left l

end Lexer

end ApexSyntax
