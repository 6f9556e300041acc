-- What the parser sees of the tokens ahead, and the classes of tokens that it
-- decides by. Looking ahead never moves the parser.
import ApexSyntax.Token.Stream

namespace ApexSyntax

/-! ## Classes of kinds -/

namespace Kind

/-- Modifiers of members and of local variables. -/
def isModifier : Kind → Bool
  | keyword .globalKw | keyword .publicKw | keyword .protectedKw | keyword .privateKw
  | keyword .transientKw | keyword .staticKw | keyword .abstractKw | keyword .finalKw
  | keyword .webserviceKw | keyword .overrideKw | keyword .virtualKw | keyword .testmethodKw
  | keyword .withKw | keyword .withoutKw | keyword .inheritedKw => true
  | _ => false

/-- Keywords that start a declaration once its modifiers are read. -/
def startsDeclaration : Kind → Bool
  | keyword .classKw | keyword .interfaceKw | keyword .enumKw | keyword .voidKw => true
  | _ => false

def isLiteral : Kind → Bool
  | literal _ | keyword .trueKw | keyword .falseKw | keyword .nullKw => true
  | _ => false

/-- Keywords that change records. -/
def isDml : Kind → Bool
  | keyword .insertKw | keyword .updateKw | keyword .deleteKw | keyword .undeleteKw
  | keyword .upsertKw => true
  | _ => false

def isAssignment : Kind → Bool
  | mark .assign | mark .addAssign | mark .subAssign | mark .mulAssign | mark .divAssign
  | mark .andAssign | mark .orAssign | mark .xorAssign | mark .lShiftAssign
  | mark .rShiftAssign | mark .urShiftAssign => true
  | _ => false

/-- Tokens that may start an operand and cannot continue one, so that a type in
parentheses before them is a cast. -/
def followsCast : Kind → Bool
  | identifier | keyword .thisKw | keyword .superKw | keyword .newKw | mark .lParen
  | mark .lBrack | mark .bang | mark .tilde | keyword .listKw | keyword .mapKw => true
  | k => k.isLiteral

/-- Tokens that may start an expression. -/
def startsExpression : Kind → Bool
  | mark .add | mark .sub | mark .inc | mark .dec | keyword .voidKw => true
  | k => k.followsCast

/-- Tokens that a surrounding rule can go on from. Before them, an expected
token counts as missing. -/
def resumes : Kind → Bool
  | eof | mark .semi | mark .comma | mark .lBrace | mark .rBrace | mark .rParen
  | mark .rBrack => true
  | _ => false

end Kind

namespace Token

/-- A name that a type may have: any identifier, `List` and `Map`. -/
def isTypeName (t : Token) : Bool :=
  t.isIdentifier || t.kind == .keyword .listKw || t.kind == .keyword .mapKw

end Token

/-! ## Looking ahead -/

/-- The visible tokens and the number of those that are read. -/
structure Lookahead where
  stream : TokenStream
  position : Nat

namespace Lookahead

/-- The token `n` places behind the current one; beyond the end, the end. -/
def nth (v : Lookahead) (n : Nat) : Token := v.stream.nth (v.position + n)

def current (v : Lookahead) : Token := v.nth 0

def kind (v : Lookahead) (n : Nat) : Kind := (v.nth n).kind

def word (v : Lookahead) (n : Nat) : String := (v.nth n).word

def isIdentifier (v : Lookahead) (n : Nat) : Bool := (v.nth n).isIdentifier

def isWord (v : Lookahead) (n : Nat) : Bool := (v.nth n).isWord

def isTypeName (v : Lookahead) (n : Nat) : Bool := (v.nth n).isTypeName

def atMark (v : Lookahead) (m : Mark) : Bool := v.kind 0 == .mark m

def atKeyword (v : Lookahead) (k : Keyword) : Bool := v.kind 0 == .keyword k

def atWord (v : Lookahead) (w : String) : Bool := v.word 0 == w

/-- The number of tokens before the end that are still to be read. -/
def left (v : Lookahead) : Nat := v.stream.visible.size - v.position

/-- The tokens `n` and `n + 1` places ahead stand side by side, with nothing
hidden between them. -/
def touches (v : Lookahead) (n : Nat) : Bool := (v.nth (n + 1)).index == (v.nth n).index + 1

/-! ## Types ahead -/

/-- The place behind pairs of brackets from `n` on. -/
def dimensionsEnd (v : Lookahead) : Nat → Nat → Nat
  | 0, n => n
  | fuel + 1, n =>
    if v.kind n == .mark .lBrack && v.kind (n + 1) == .mark .rBrack then
      dimensionsEnd v fuel (n + 2)
    else n

/-- The place behind a type of which everything before `n` is read. `depth` lists
of type arguments are open, and `named` tells that a name was just read. Every
step but the last reads a token. -/
def typeEndFrom (v : Lookahead) : Nat → (named : Bool) → (depth n : Nat) → Option Nat
  | 0, _, _, _ => none
  | fuel + 1, false, depth, n =>
    if v.isTypeName n then
      if v.kind (n + 1) == .mark .lt then typeEndFrom v fuel false (depth + 1) (n + 2)
      else typeEndFrom v fuel true depth (n + 1)
    else none
  | fuel + 1, true, depth, n =>
    if v.kind n == .mark .dot && v.isTypeName (n + 1) then typeEndFrom v fuel false depth (n + 1)
    else
      let m := v.dimensionsEnd v.left n
      match depth with
      | 0 => some m
      | outer + 1 =>
        if v.kind m == .mark .comma then typeEndFrom v fuel false (outer + 1) (m + 1)
        else if v.kind m == .mark .gt then typeEndFrom v fuel true outer (m + 1)
        else none

/-- The place behind the type that starts `n` places ahead, if one does. -/
def typeEnd? (v : Lookahead) (n : Nat) : Option Nat := v.typeEndFrom (v.left + 2) false 0 n

/-! ## Declarations ahead -/

/-- The number of tokens in the modifier at `n`; none when there is no modifier.
`with`, `without` and `inherited` count only before `sharing`. -/
def modifierLength (v : Lookahead) (n : Nat) : Nat :=
  match v.kind n with
  | .keyword .withKw | .keyword .withoutKw | .keyword .inheritedKw =>
    if v.kind (n + 1) == .keyword .sharingKw then 2 else 0
  | k => if k.isModifier then 1 else 0

/-- The place behind the parentheses that open at `n`, or the end of the text. -/
def groupEnd (v : Lookahead) : Nat → (depth n : Nat) → Nat
  | 0, _, n => n
  | fuel + 1, depth, n =>
    match v.kind n with
    | .mark .lParen => groupEnd v fuel (depth + 1) (n + 1)
    | .mark .rParen => if depth ≤ 1 then n + 1 else groupEnd v fuel (depth - 1) (n + 1)
    | .eof => n
    | _ => groupEnd v fuel depth (n + 1)

/-- The place behind a dotted name. -/
def dottedNameEnd (v : Lookahead) : Nat → Nat → Nat
  | 0, n => n
  | fuel + 1, n =>
    if v.isWord n then
      if v.kind (n + 1) == .mark .dot then dottedNameEnd v fuel (n + 2) else n + 1
    else n

/-- The place behind the annotation whose name starts at `n`. -/
def annotationEnd (v : Lookahead) (n : Nat) : Nat :=
  let m := v.dottedNameEnd v.left n
  if v.kind m == .mark .lParen then v.groupEnd (v.left + 1) 0 m else m

/-- A type, a name and an opening mark follow, or a keyword that only
declarations start with. -/
def declarationAhead (v : Lookahead) (n : Nat) : Bool :=
  (v.kind n).startsDeclaration ||
    match v.typeEnd? n with
    | some m =>
      v.isIdentifier m && (v.kind (m + 1) == .mark .lParen || v.kind (m + 1) == .mark .lBrace)
    | none => false

/-- A member starts at `n`. It does whenever an annotation or a modifier other
than `final` was read before. -/
def memberAheadFrom (v : Lookahead) : Nat → (modified : Bool) → (n : Nat) → Bool
  | 0, modified, n => modified || v.declarationAhead n
  | fuel + 1, modified, n =>
    if v.kind n == .mark .atSign then memberAheadFrom v fuel true (v.annotationEnd (n + 1))
    else
      let size := v.modifierLength n
      if size = 0 then modified || v.declarationAhead n
      else memberAheadFrom v fuel (modified || v.kind n != .keyword .finalKw) (n + size)

/-- Among statements, a member declaration comes next. -/
def memberAhead (v : Lookahead) : Bool := v.memberAheadFrom (v.left + 1) false 0

/-- A type and a name come next, and `follows` holds for the kind behind them. -/
def typedNameAhead (v : Lookahead) (n : Nat) (follows : Kind → Bool) : Bool :=
  match v.typeEnd? n with
  | some m => v.isIdentifier m && follows (v.kind (m + 1))
  | none => false

/-- A declaration of local variables comes next. -/
def localVariableAhead (v : Lookahead) : Bool :=
  v.atKeyword .finalKw ||
    v.typedNameAhead 0 fun k => k == .mark .assign || k == .mark .semi || k == .mark .comma

/-- The control of a loop over a collection comes next. -/
def eachLoopAhead (v : Lookahead) : Bool :=
  v.typedNameAhead (if v.atKeyword .finalKw then 1 else 0) fun k => k == .mark .colon

/-- A type in parentheses and the start of its operand come next. -/
def castAhead (v : Lookahead) : Bool :=
  match v.typeEnd? 1 with
  | some n => v.kind n == .mark .rParen && (v.kind (n + 1)).followsCast
  | none => false

/-- A generic type or an array type comes next, with `.class` behind it. -/
def classReferenceAhead (v : Lookahead) : Bool :=
  (v.kind 1 == .mark .lt || v.kind 1 == .mark .lBrack) &&
    match v.typeEnd? 0 with
    | some n => v.kind n == .mark .dot && v.word (n + 1) == "class"
    | none => false

end Lookahead

end ApexSyntax
