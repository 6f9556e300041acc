-- The parts of statements. A semicolon alone is no statement: lists of
-- statements read over it, loops take it as an empty body, and elsewhere it is
-- an error.
import ApexSyntax.Grammar.Step

namespace ApexSyntax

open Step

/-- A list up to a closing brace: what closes it, a stray semicolon, or one
more item. Every turn reads at least one token. -/
def untilBrace (v : Lookahead) (item again : Step) : List Step :=
  if v.atMark .rBrace || v.kind 0 == .eof then [expect (.mark .rBrace)]
  else if v.atMark .semi then [take 1, again]
  else [item, progress v.position, again]

/-- The steps of an expression as a statement. -/
def expressionStatementSteps : List Step :=
  [start .expressionStatement, expr .expression, expect (.mark .semi), finish]

/-- A keyword, an expression and a semicolon. -/
def keywordExpressionSteps (r : Rule) : List Step :=
  [start r, take 1, expr .expression, expect (.mark .semi), finish]

/-- A keyword and a semicolon. -/
def jumpSteps (r : Rule) : List Step := [start r, take 1, expect (.mark .semi), finish]

/-- The steps of a statement that changes records. -/
def dmlSteps (v : Lookahead) : List Step :=
  [start .dmlStatement, take 1, stmt .accessLevel, expr .expression] ++
    (if v.atKeyword .upsertKw then [stmt .upsertKey] else []) ++ [expect (.mark .semi), finish]

/-- The steps inside of a statement. -/
def statementSteps (v : Lookahead) : List Step :=
  match v.kind 0 with
  | .mark .lBrace => [stmt .block]
  | .keyword .ifKw =>
    [start .ifStatement, take 1, stmt .parenthesized, stmt .statement, stmt .elseBranch, finish]
  | .keyword .forKw =>
    [start .forStatement, take 1, expect (.mark .lParen), stmt .loopControl,
      expect (.mark .rParen), stmt .loopBody, finish]
  | .keyword .whileKw =>
    [start .whileStatement, take 1, stmt .parenthesized, stmt .loopBody, finish]
  | .keyword .doKw =>
    [start .doWhileStatement, take 1, stmt .block, expect (.keyword .whileKw),
      stmt .parenthesized, expect (.mark .semi), finish]
  | .keyword .tryKw => [start .tryStatement, take 1, stmt .block, stmt .handlers, finish]
  | .keyword .returnKw =>
    [start .returnStatement, take 1, stmt .returnValue, expect (.mark .semi), finish]
  | .keyword .throwKw => keywordExpressionSteps .throwStatement
  | .keyword .breakKw => jumpSteps .breakStatement
  | .keyword .continueKw => jumpSteps .continueStatement
  | .keyword .mergeKw =>
    [start .dmlStatement, take 1, expr .expression, expr .expression, expect (.mark .semi), finish]
  | .keyword .systemRunAsKw =>
    [start .runAsStatement, take 1, expect (.mark .lParen), stmt .runAsUsers,
      expect (.mark .rParen), stmt .block, finish]
  | k =>
    if k = .keyword .switchKw ∧ v.kind 1 = .keyword .onKw then
      [start .switchStatement, take 2, expr .expression,
        expectThen (.mark .lBrace) (stmt .whenClauses), finish]
    else if k.isDml then dmlSteps v
    else if v.localVariableAhead then [stmt .localVariables, expect (.mark .semi)]
    else if k.startsExpression || v.isIdentifier 0 then expressionStatementSteps
    else [complain .noAlternative, skip]

/-- The steps inside of the control of a loop. -/
def loopControlSteps (v : Lookahead) : List Step :=
  if v.eachLoopAhead then
    [decl .modifiers, typ .type, expect .identifier, expect (.mark .colon), expr .expression]
  else
    [stmt .loopStart, expect (.mark .semi), stmt .loopCondition, expect (.mark .semi),
      stmt .loopUpdate]

/-- The steps inside of what a case of a switch matches. -/
def whenValueSteps (v : Lookahead) : List Step :=
  if v.atKeyword .elseKw then [take 1]
  else if v.isIdentifier 0 && v.isIdentifier 1 then [take 2]
  else [stmt .whenLiteral, stmt .moreWhenLiterals]

/-- The steps that a part of a statement consists of. -/
def StmtPart.expand (v : Lookahead) : StmtPart → List Step
  | .block => [start .block, expectThen (.mark .lBrace) (stmt .blockStatements), finish]
  | .blockStatements => untilBrace v (stmt .statement) (stmt .blockStatements)
  | .statement => start .statement :: statementSteps v ++ [finish]
  | .loopBody => if v.atMark .semi then [take 1] else [stmt .statement]
  | .localVariables =>
    [start .localVariableDeclaration, decl .modifiers, typ .type, decl .variables, finish]
  | .parenthesized =>
    [start .parExpression, expect (.mark .lParen), expr .expression, expect (.mark .rParen),
      finish]
  | .elseBranch => if v.atKeyword .elseKw then [take 1, stmt .statement] else []
  | .whenClauses =>
    if v.atMark .rBrace then
      [complain (.mismatch (Kind.keyword .whenKw).display), stmt .moreWhenClauses]
    else [stmt .moreWhenClauses]
  | .moreWhenClauses =>
    if v.atMark .rBrace || v.kind 0 == .eof then [expect (.mark .rBrace)]
    else
      [start .whenControl, expect (.keyword .whenKw), stmt .whenValue, stmt .block, finish,
        progress v.position, stmt .moreWhenClauses]
  | .whenValue => start .whenValue :: whenValueSteps v ++ [finish]
  | .whenLiteral =>
    if v.atMark .lParen then
      [start .whenLiteral, take 1, stmt .whenLiteral, expect (.mark .rParen), finish]
    else [start .whenLiteral, takeIf .sub, stmt .whenAtom, finish]
  | .moreWhenLiterals =>
    if v.atMark .comma then [take 1, stmt .whenLiteral, stmt .moreWhenLiterals] else []
  | .whenAtom =>
    if (v.kind 0).isLiteral || v.isIdentifier 0 then [take 1] else [complain .noAlternative]
  | .loopControl => start .forControl :: loopControlSteps v ++ [finish]
  | .loopStart =>
    if v.atMark .semi then []
    else if v.localVariableAhead then [stmt .localVariables]
    else [expr .list]
  | .loopCondition => if v.atMark .semi then [] else [expr .expression]
  | .loopUpdate => if v.atMark .rParen then [] else [expr .list]
  | .handlers =>
    if v.atKeyword .catchKw || v.atKeyword .finallyKw then [stmt .moreHandlers]
    else [complain (.mismatch "\x7b'catch', 'finally'\x7d")]
  | .moreHandlers =>
    if v.atKeyword .catchKw then
      [start .catchClause, take 1, expect (.mark .lParen), decl .modifiers, typ .type,
        expect .identifier, expect (.mark .rParen), stmt .block, finish, stmt .moreHandlers]
    else if v.atKeyword .finallyKw then
      [start .finallyBlock, take 1, stmt .block, finish]
    else []
  | .returnValue => if v.atMark .semi then [] else [expr .expression]
  | .accessLevel =>
    if v.atWord "as" && (v.word 1 == "user" || v.word 1 == "system") &&
        v.kind 2 != .mark .semi then
      [start .accessLevel, take 2, finish]
    else []
  | .upsertKey => if v.atMark .semi then [] else [decl .qualifiedName]
  | .runAsUsers => if v.atMark .rParen then [] else [expr .list]

end ApexSyntax
