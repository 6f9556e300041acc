-- The kinds of tokens. A kind is a literal form, a keyword, a mark of
-- punctuation or one of a few classes; keywords and marks carry the spelling
-- by which the lexer finds them and messages name them.
namespace ApexSyntax

/-! ## Keywords -/

/-- The words with a meaning of their own. `systemRunAsKw` is the one keyword
that is written as two words joined by a dot. -/
inductive Keyword where
  | abstractKw | afterKw | beforeKw | breakKw | catchKw | classKw | continueKw
  | deleteKw | doKw | elseKw | enumKw | extendsKw | falseKw | finalKw | finallyKw
  | forKw | getKw | globalKw | ifKw | implementsKw | inheritedKw | insertKw
  | instanceofKw | interfaceKw | listKw | mapKw | mergeKw | newKw | nullKw | onKw
  | overrideKw | privateKw | protectedKw | publicKw | returnKw | setKw | sharingKw
  | staticKw | superKw | switchKw | systemRunAsKw | testmethodKw | thisKw | throwKw
  | transientKw | triggerKw | trueKw | tryKw | undeleteKw | updateKw | upsertKw
  | virtualKw | voidKw | webserviceKw | whenKw | whileKw | withKw | withoutKw
  deriving DecidableEq, Repr

namespace Keyword

/-- The keyword as it is written, in small letters. -/
def word : Keyword → String
  | .abstractKw => "abstract"
  | .afterKw => "after"
  | .beforeKw => "before"
  | .breakKw => "break"
  | .catchKw => "catch"
  | .classKw => "class"
  | .continueKw => "continue"
  | .deleteKw => "delete"
  | .doKw => "do"
  | .elseKw => "else"
  | .enumKw => "enum"
  | .extendsKw => "extends"
  | .falseKw => "false"
  | .finalKw => "final"
  | .finallyKw => "finally"
  | .forKw => "for"
  | .getKw => "get"
  | .globalKw => "global"
  | .ifKw => "if"
  | .implementsKw => "implements"
  | .inheritedKw => "inherited"
  | .insertKw => "insert"
  | .instanceofKw => "instanceof"
  | .interfaceKw => "interface"
  | .listKw => "list"
  | .mapKw => "map"
  | .mergeKw => "merge"
  | .newKw => "new"
  | .nullKw => "null"
  | .onKw => "on"
  | .overrideKw => "override"
  | .privateKw => "private"
  | .protectedKw => "protected"
  | .publicKw => "public"
  | .returnKw => "return"
  | .setKw => "set"
  | .sharingKw => "sharing"
  | .staticKw => "static"
  | .superKw => "super"
  | .switchKw => "switch"
  | .systemRunAsKw => "system.runas"
  | .testmethodKw => "testmethod"
  | .thisKw => "this"
  | .throwKw => "throw"
  | .transientKw => "transient"
  | .triggerKw => "trigger"
  | .trueKw => "true"
  | .tryKw => "try"
  | .undeleteKw => "undelete"
  | .updateKw => "update"
  | .upsertKw => "upsert"
  | .virtualKw => "virtual"
  | .voidKw => "void"
  | .webserviceKw => "webservice"
  | .whenKw => "when"
  | .whileKw => "while"
  | .withKw => "with"
  | .withoutKw => "without"

/-- All keywords, in the order of their declaration. -/
def all : List Keyword := [
  .abstractKw, .afterKw, .beforeKw, .breakKw, .catchKw, .classKw, .continueKw, .deleteKw,
  .doKw, .elseKw, .enumKw, .extendsKw, .falseKw, .finalKw, .finallyKw, .forKw, .getKw,
  .globalKw, .ifKw, .implementsKw, .inheritedKw, .insertKw, .instanceofKw, .interfaceKw,
  .listKw, .mapKw, .mergeKw, .newKw, .nullKw, .onKw, .overrideKw, .privateKw, .protectedKw,
  .publicKw, .returnKw, .setKw, .sharingKw, .staticKw, .superKw, .switchKw, .systemRunAsKw,
  .testmethodKw, .thisKw, .throwKw, .transientKw, .triggerKw, .trueKw, .tryKw, .undeleteKw,
  .updateKw, .upsertKw, .virtualKw, .voidKw, .webserviceKw, .whenKw, .whileKw, .withKw,
  .withoutKw]

theorem mem_all (k : Keyword) : k ∈ all := by cases k <;> decide

/-- The keyword that a single word spells. -/
def ofWord? (word : String) : Option Keyword :=
  all.find? fun k => k != .systemRunAsKw && k.word == word

/-- Keywords that also serve as names. -/
def isSoft : Keyword → Bool
  | .afterKw | .beforeKw | .getKw | .inheritedKw | .instanceofKw | .setKw | .sharingKw
  | .switchKw | .transientKw | .triggerKw | .whenKw | .withKw | .withoutKw => true
  | _ => false

theorem word_of_ofWord? {word : String} {k : Keyword} (h : ofWord? word = some k) :
    k.word = word := by
  have := List.find?_some h
  simp at this
  exact this.2

end Keyword

/-! ## Separators and operators -/

inductive Mark where
  | lParen | rParen | lBrace | rBrace | lBrack | rBrack | semi | comma | dot | atSign
  | assign | gt | lt | bang | tilde | question | questionDot | coalesce | colon | eq
  | tripleEq | le | ge | ne | lessGreater | tripleNe | andAnd | orOr | inc | dec | add
  | sub | mul | div | bitAnd | bitOr | caret | mod | mapsTo | addAssign | subAssign
  | mulAssign | divAssign | andAssign | orAssign | xorAssign | lShiftAssign
  | rShiftAssign | urShiftAssign
  deriving DecidableEq, Repr

namespace Mark

/-- The mark as it is written. -/
def spelling : Mark → String
  | .lParen => "("
  | .rParen => ")"
  | .lBrace => "\x7b"
  | .rBrace => "\x7d"
  | .lBrack => "["
  | .rBrack => "]"
  | .semi => ";"
  | .comma => ","
  | .dot => "."
  | .atSign => "@"
  | .assign => "="
  | .gt => ">"
  | .lt => "<"
  | .bang => "!"
  | .tilde => "~"
  | .question => "?"
  | .questionDot => "?."
  | .coalesce => "??"
  | .colon => ":"
  | .eq => "=="
  | .tripleEq => "==="
  | .le => "<="
  | .ge => ">="
  | .ne => "!="
  | .lessGreater => "<>"
  | .tripleNe => "!=="
  | .andAnd => "&&"
  | .orOr => "||"
  | .inc => "++"
  | .dec => "--"
  | .add => "+"
  | .sub => "-"
  | .mul => "*"
  | .div => "/"
  | .bitAnd => "&"
  | .bitOr => "|"
  | .caret => "^"
  | .mod => "%"
  | .mapsTo => "=>"
  | .addAssign => "+="
  | .subAssign => "-="
  | .mulAssign => "*="
  | .divAssign => "/="
  | .andAssign => "&="
  | .orAssign => "|="
  | .xorAssign => "^="
  | .lShiftAssign => "<<="
  | .rShiftAssign => ">>="
  | .urShiftAssign => ">>>="

/-- All marks, in the order of their declaration. -/
def all : List Mark := [
  .lParen, .rParen, .lBrace, .rBrace, .lBrack, .rBrack, .semi, .comma, .dot, .atSign, .assign,
  .gt, .lt, .bang, .tilde, .question, .questionDot, .coalesce, .colon, .eq, .tripleEq, .le,
  .ge, .ne, .lessGreater, .tripleNe, .andAnd, .orOr, .inc, .dec, .add, .sub, .mul, .div,
  .bitAnd, .bitOr, .caret, .mod, .mapsTo, .addAssign, .subAssign, .mulAssign, .divAssign,
  .andAssign, .orAssign, .xorAssign, .lShiftAssign, .rShiftAssign, .urShiftAssign]

theorem mem_all (m : Mark) : m ∈ all := by cases m <;> decide

end Mark

/-! ## Literals and kinds -/

inductive Literal where
  | integer | long | number | string | date
  deriving DecidableEq, Repr

inductive Kind where
  /-- The end of the text. -/
  | eof
  /-- A run of blanks and line breaks. -/
  | blank
  | comment
  | identifier
  | literal (form : Literal)
  | keyword (k : Keyword)
  | mark (m : Mark)
  deriving DecidableEq, Repr

namespace Kind

def all : List Kind :=
  [.eof, .blank, .comment, .identifier] ++
    [.integer, .long, .number, .string, .date].map literal ++
    Keyword.all.map keyword ++ Mark.all.map mark

/-- The place of a kind among all kinds. -/
def index (k : Kind) : Nat := all.idxOf k

def isKeyword : Kind → Bool
  | keyword _ => true
  | _ => false

def isSoftKeyword : Kind → Bool
  | keyword k => k.isSoft
  | _ => false

/-- Blanks and comments are hidden from the parser. -/
def isHidden : Kind → Bool
  | blank | comment => true
  | _ => false

/-- The name of a kind in messages about what was expected. -/
def display : Kind → String
  | eof => "<EOF>"
  | blank => "WS"
  | comment => "COMMENT"
  | identifier => "Identifier"
  | literal .integer => "IntegerLiteral"
  | literal .long => "LongLiteral"
  | literal .number => "NumberLiteral"
  | literal .string => "StringLiteral"
  | literal .date => "DateLiteral"
  | keyword k => "'" ++ k.word ++ "'"
  | mark m => "'" ++ m.spelling ++ "'"

end Kind

end ApexSyntax
