-- The parts of expressions. Binary operators have eleven levels, the loosest
-- first; operators of one level lean to the left, the conditional and the
-- assignments to the right. A shift is written with angles that touch.
import ApexSyntax.Grammar.Step

namespace ApexSyntax

open Step

/-! ## Binary operators -/

/-- The number of levels of binary operators. -/
def binaryLevels : Nat := 11

/-- Two angles of one kind that touch. -/
def Lookahead.doubled (v : Lookahead) (m : Mark) : Bool :=
  v.atMark m && v.kind 1 == .mark m && v.touches 0

/-- Angles stand for a comparison unless they are doubled. -/
def Lookahead.comparisonAhead (v : Lookahead) : Bool :=
  v.atMark .le || v.atMark .ge || (v.atMark .lt && !v.doubled .lt) ||
    (v.atMark .gt && !v.doubled .gt)

/-- The operator of a level that comes next: its rule and the number of its
tokens. -/
def Lookahead.operatorAhead (v : Lookahead) (level : Nat) : Option (Rule × Nat) :=
  match level with
  | 0 => if v.atMark .coalesce then some (.coalExpression, 1) else none
  | 1 => if v.atMark .orOr then some (.logOrExpression, 1) else none
  | 2 => if v.atMark .andAnd then some (.logAndExpression, 1) else none
  | 3 => if v.atMark .bitOr then some (.bitOrExpression, 1) else none
  | 4 => if v.atMark .caret then some (.bitNotExpression, 1) else none
  | 5 => if v.atMark .bitAnd then some (.bitAndExpression, 1) else none
  | 6 =>
    if v.atMark .eq || v.atMark .ne || v.atMark .lessGreater || v.atMark .tripleEq ||
        v.atMark .tripleNe then
      some (.equalityExpression, 1)
    else none
  | 7 =>
    if v.atKeyword .instanceofKw then some (.instanceOfExpression, 1)
    else if v.comparisonAhead then some (.cmpExpression, 1)
    else none
  | 8 =>
    if v.doubled .lt then some (.bitExpression, 2)
    else if v.doubled .gt then
      some (.bitExpression, if v.kind 2 == .mark .gt && v.touches 1 then 3 else 2)
    else none
  | 9 => if v.atMark .add || v.atMark .sub then some (.arth2Expression, 1) else none
  | 10 =>
    if v.atMark .mul || v.atMark .div || v.atMark .mod then some (.arth1Expression, 1) else none
  | _ => none

/-- The right operand of an operator: a type behind `instanceof`, else an
expression of the next level. -/
def rightOperand (r : Rule) (level : Nat) : Step :=
  if r = .instanceOfExpression then typ .type else expr (.binary (level + 1))

/-! ## Parts -/

/-- The steps of a call: a name and its arguments. -/
def callSteps : List Step := [start .methodCall, take 1, expr .arguments, finish]

/-- The steps of the values of a collection between braces. -/
def initializerSteps (mark : Nat) : List Step := [take 1, expr (.initializerValues mark)]

/-- The steps of a prefixed, cast or plain operand. -/
def unarySteps (v : Lookahead) : List Step :=
  match v.kind 0 with
  | .mark .add | .mark .sub | .mark .inc | .mark .dec =>
    [start .preOpExpression, take 1, expr .unary, finish]
  | .mark .bang | .mark .tilde => [start .negExpression, take 1, expr .unary, finish]
  | .mark .lParen =>
    if v.castAhead then
      [start .castExpression, take 1, typ .type, expect (.mark .rParen), expr .unary, finish]
    else [expr .operand]
  | _ => [expr .operand]

/-- The steps inside of a primary expression. -/
def primarySteps (v : Lookahead) : List Step :=
  if v.atKeyword .thisKw || v.atKeyword .superKw then
    if v.kind 1 == .mark .lParen then callSteps else [take 1]
  else if (v.kind 0).isLiteral then [expr .literal]
  else if v.atMark .lParen then [take 1, expr .expression, expect (.mark .rParen)]
  else if v.atKeyword .newKw then
    [start .newExpression, take 1, expr .creator, finish]
  else if v.atMark .lBrack && v.word 1 == "select" then
    [start .soqlLiteral, take 1, soql .query, expect (.mark .rBrack), finish]
  else if v.atMark .lBrack && v.word 1 == "find" then
    [start .soslLiteral, take 1, soql .search, expect (.mark .rBrack), finish]
  else if v.atKeyword .voidKw && v.kind 1 == .mark .dot then [take 1]
  else if v.isTypeName 0 then
    if v.kind 1 == .mark .lParen then callSteps
    else if v.classReferenceAhead then [typ .type]
    else [take 1]
  else [complain .noAlternative]

/-- The steps that a part of an expression consists of. `mark` is the number of
children that the open node has so far. -/
def ExprPart.expand (v : Lookahead) (mark : Nat) : ExprPart → List Step
  | .expression => [expr .conditional, expr (.assignment mark)]
  | .assignment m =>
    if (v.kind 0).isAssignment then [wrap m .assignExpression, take 1, expr .expression, finish]
    else []
  | .conditional => [expr (.binary 0), expr (.alternatives mark)]
  | .alternatives m =>
    if v.atMark .question then
      [wrap m .condExpression, take 1, expr .expression, expect (.mark .colon),
        expr .conditional, finish]
    else []
  | .binary level =>
    if level < binaryLevels then [expr (.binary (level + 1)), expr (.operators level mark)]
    else [expr .unary]
  | .operators level m =>
    match v.operatorAhead level with
    | some (r, n) => [wrap m r, take n, rightOperand r level, finish, expr (.operators level m)]
    | none => []
  | .unary => unarySteps v
  | .operand => [expr .primary, expr (.suffixes mark)]
  | .suffixes m =>
    if v.atMark .dot || v.atMark .questionDot then
      [wrap m .dotExpression, take 1, expr .member, finish, expr (.suffixes m)]
    else if v.atMark .lBrack then
      [wrap m .arrayExpression, take 1, expr .expression, expect (.mark .rBrack), finish,
        expr (.suffixes m)]
    else if v.atMark .inc || v.atMark .dec then
      [wrap m .postOpExpression, take 1, finish, expr (.suffixes m)]
    else []
  | .member =>
    if v.isWord 0 && v.kind 1 == .mark .lParen then callSteps else [expect .word]
  | .primary => start .primaryExpression :: primarySteps v ++ [finish]
  | .literal =>
    [start .literal, if (v.kind 0).isLiteral then take 1 else complain .noAlternative, finish]
  | .arguments =>
    [start .arguments, expect (.mark .lParen), expr .argumentList, expect (.mark .rParen), finish]
  | .argumentList => if v.atMark .rParen then [] else [expr .list]
  | .list => [expr .expression, expr .moreExpressions]
  | .moreExpressions =>
    if v.atMark .comma then [take 1, expr .expression, expr .moreExpressions] else []
  | .creator => [start .creator, typ .name, typ .dottedNames, expr .creatorForm, finish]
  | .creatorForm =>
    if v.atMark .lParen then [expr .arguments]
    else if v.atMark .lBrack then [take 1, expr .arraySize]
    else if v.atMark .lBrace then initializerSteps mark
    else [complain (.mismatch "\x7b'(', '[', '\x7b'\x7d")]
  | .arraySize =>
    if v.atMark .rBrack then [take 1, expr .arrayValues]
    else [expr .expression, expect (.mark .rBrack)]
  | .arrayValues => if v.atMark .lBrace then initializerSteps mark else []
  | .initializerValues m =>
    if v.atMark .rBrace then [wrap m .arrayInitializer, take 1, finish]
    else [expr .expression, expr (.initializerRest m)]
  | .initializerRest m =>
    if v.atMark .mapsTo then
      [wrap m .mapInitializer, take 1, expr .expression, expr .mapEntries,
        expect (.mark .rBrace), finish]
    else
      [wrap m .arrayInitializer, expr .moreExpressions, expect (.mark .rBrace), finish]
  | .mapEntries =>
    if v.atMark .comma then
      [take 1, expr .expression, expect (.mark .mapsTo), expr .expression, expr .mapEntries]
    else []

end ApexSyntax
