-- The grammar that the trees belong to, apart from how they are parsed: what the
-- children of a node may be. The productions of expressions hold on every text,
-- and those of statements on a text without an error.
import ApexSyntax.Grammar.Step
import ApexSyntax.Tree.Basic

namespace ApexSyntax

/-! ## Levels of expressions -/

/-- How tightly the operator of an expression binds. Operands bind tightest. -/
def Rule.level? : Rule → Option Int
  | .assignExpression => some (-2)
  | .condExpression => some (-1)
  | .coalExpression => some 0
  | .logOrExpression => some 1
  | .logAndExpression => some 2
  | .bitOrExpression => some 3
  | .bitNotExpression => some 4
  | .bitAndExpression => some 5
  | .equalityExpression => some 6
  | .cmpExpression | .instanceOfExpression => some 7
  | .bitExpression => some 8
  | .arth2Expression => some 9
  | .arth1Expression => some 10
  | .preOpExpression | .negExpression | .castExpression => some 11
  | .dotExpression | .arrayExpression | .postOpExpression | .primaryExpression => some 12
  | _ => none

/-! ## Symbols -/

/-- What stands for some children of a node in a production. -/
inductive Symbol where
  /-- Any trees. -/
  | anything
  /-- A matched token of a class. -/
  | token (accepts : Token → Bool)
  /-- A node of a rule. -/
  | node (r : Rule)
  /-- An expression of a level or a tighter one. -/
  | expression (level : Int)
  | oneOf (alternatives : List (List Symbol))
  | many (item : List Symbol)

namespace Symbol

def expected (e : Expected) : Symbol := token e.accepts

def mark (m : Mark) : Symbol := expected (.mark m)

def keyword (k : Keyword) : Symbol := expected (.keyword k)

def identifier : Symbol := expected .identifier

/-- An expression of any level. -/
def anyExpression : Symbol := expression (-2)

def optional (item : List Symbol) : Symbol := oneOf [[], item]

/-- Items with commas between them. -/
def separated (item : Symbol) : List Symbol := [item, many [mark .comma, item]]

end Symbol

/-- Some trees stand for some symbols. -/
inductive Derives : List Symbol → List Tree → Prop
  | nil : Derives [] []
  | anything {ss : List Symbol} {us : List Tree} (ts : List Tree) :
      Derives ss us → Derives (.anything :: ss) (ts ++ us)
  | token {accepts : Token → Bool} {ss : List Symbol} {t : Token} {ts : List Tree} :
      accepts t = true → Derives ss ts → Derives (.token accepts :: ss) (.token t :: ts)
  | node {r : Rule} {ss : List Symbol} {children ts : List Tree} :
      Derives ss ts → Derives (.node r :: ss) (.node r children :: ts)
  | expression {r : Rule} {k level : Int} {ss : List Symbol} {children ts : List Tree} :
      r.level? = some k → level ≤ k → Derives ss ts →
      Derives (.expression level :: ss) (.node r children :: ts)
  | oneOf {as : List (List Symbol)} {a ss : List Symbol} {ts : List Tree} :
      a ∈ as → Derives (a ++ ss) ts → Derives (.oneOf as :: ss) ts
  | done {item ss : List Symbol} {ts : List Tree} : Derives ss ts → Derives (.many item :: ss) ts
  | again {item ss : List Symbol} {ts : List Tree} :
      Derives (item ++ .many item :: ss) ts → Derives (.many item :: ss) ts

theorem Derives.append {ss ss' : List Symbol} {ts us : List Tree} (h : Derives ss ts)
    (h' : Derives ss' us) : Derives (ss ++ ss') (ts ++ us) := by
  induction h with
  | nil => exact h'
  | anything ts _ ih => rw [List.append_assoc]; exact .anything ts ih
  | token ha _ ih => exact .token ha ih
  | node _ ih => exact .node ih
  | expression hr hk _ ih => exact .expression hr hk ih
  | oneOf ha _ ih => rw [List.append_assoc] at ih; exact .oneOf ha ih
  | done _ ih => exact .done ih
  | again _ ih => rw [List.append_assoc] at ih; exact .again ih

/-! ## Productions of expressions -/

/-- The ways to write the operator of a binary expression. -/
def Rule.operators : Rule → List (List Symbol)
  | .coalExpression => [[.mark .coalesce]]
  | .logOrExpression => [[.mark .orOr]]
  | .logAndExpression => [[.mark .andAnd]]
  | .bitOrExpression => [[.mark .bitOr]]
  | .bitNotExpression => [[.mark .caret]]
  | .bitAndExpression => [[.mark .bitAnd]]
  | .equalityExpression =>
    [[.mark .eq], [.mark .ne], [.mark .lessGreater], [.mark .tripleEq], [.mark .tripleNe]]
  | .cmpExpression => [[.mark .lt], [.mark .gt], [.mark .le], [.mark .ge]]
  | .instanceOfExpression => [[.keyword .instanceofKw]]
  | .bitExpression =>
    [[.mark .lt, .mark .lt], [.mark .gt, .mark .gt], [.mark .gt, .mark .gt, .mark .gt]]
  | .arth2Expression => [[.mark .add], [.mark .sub]]
  | .arth1Expression => [[.mark .mul], [.mark .div], [.mark .mod]]
  | _ => []

/-- The left operand of a binary expression may be of its own level; the right one
is of a tighter level, or a type. -/
def binaryProduction (r : Rule) (level : Int) : List Symbol :=
  [.expression level, .oneOf r.operators,
    if r = .instanceOfExpression then .node .typeRef else .expression (level + 1)]

/-- What the children of an expression are. -/
def Rule.expressionProduction? (r : Rule) : Option (List Symbol) :=
  match r with
  | .assignExpression =>
    some [.expression (-1), .token (·.kind.isAssignment), .anyExpression]
  | .condExpression =>
    some [.expression 0, .mark .question, .anyExpression, .anything, .expression (-1)]
  | .preOpExpression =>
    some [.oneOf [[.mark .add], [.mark .sub], [.mark .inc], [.mark .dec]], .expression 11]
  | .negExpression => some [.oneOf [[.mark .bang], [.mark .tilde]], .expression 11]
  | .castExpression => some [.mark .lParen, .node .typeRef, .anything, .expression 11]
  | .dotExpression =>
    some [.expression 12, .oneOf [[.mark .dot], [.mark .questionDot]], .anything]
  | .arrayExpression => some [.expression 12, .mark .lBrack, .anyExpression, .anything]
  | .postOpExpression => some [.expression 12, .oneOf [[.mark .inc], [.mark .dec]]]
  | .primaryExpression => none
  | r => r.level?.map (binaryProduction r)

/-! ## Productions of statements -/

/-- The body of a loop: a statement, or nothing but a semicolon. -/
def loopBodySymbol : Symbol := .oneOf [[.mark .semi], [.node .statement]]

/-- Modifiers and annotations. -/
def modifiersSymbol : Symbol := .many [.oneOf [[.node .modifier], [.node .annotationUse]]]

def statementKinds : List (List Symbol) :=
  [[.node .block], [.node .ifStatement], [.node .switchStatement], [.node .forStatement],
    [.node .whileStatement], [.node .doWhileStatement], [.node .tryStatement],
    [.node .returnStatement], [.node .throwStatement], [.node .breakStatement],
    [.node .continueStatement], [.node .dmlStatement], [.node .runAsStatement],
    [.node .localVariableDeclaration, .mark .semi], [.node .expressionStatement]]

/-- The words of the statements that change records in one way each. -/
def dmlKeywords : List (List Symbol) :=
  [[.keyword .insertKw], [.keyword .updateKw], [.keyword .deleteKw], [.keyword .undeleteKw]]

/-- What may stand in front of the first semicolon of a loop. -/
def loopStartSymbol : Symbol :=
  .oneOf [[], [.node .localVariableDeclaration], Symbol.separated .anyExpression]

/-- What stands behind the block of a `try`: at least one of both. -/
def handlersSymbol : Symbol :=
  .oneOf [[.node .catchClause, .many [.node .catchClause], .optional [.node .finallyBlock]],
    [.node .finallyBlock]]

/-- What the children of a statement, and of the parts of statements, are. -/
def Rule.statementProduction? : Rule → Option (List Symbol)
  | .block => some [.mark .lBrace, .many [.oneOf [[.mark .semi], [.node .statement]]], .mark .rBrace]
  | .statement => some [.oneOf statementKinds]
  | .localVariableDeclaration =>
    some ([modifiersSymbol, .node .typeRef] ++ Symbol.separated (.node .variableDeclarator))
  | .ifStatement =>
    some [.keyword .ifKw, .node .parExpression, .node .statement,
      .optional [.keyword .elseKw, .node .statement]]
  | .switchStatement =>
    some [.keyword .switchKw, .keyword .onKw, .anyExpression, .mark .lBrace,
      .node .whenControl, .many [.node .whenControl], .mark .rBrace]
  | .whenControl => some [.keyword .whenKw, .node .whenValue, .node .block]
  | .whenValue =>
    some [.oneOf [[.keyword .elseKw], [.identifier, .identifier],
      Symbol.separated (.node .whenLiteral)]]
  | .whenLiteral =>
    some [.oneOf [[.mark .lParen, .node .whenLiteral, .mark .rParen],
      [.optional [.mark .sub], .token fun t => t.kind.isLiteral || t.isIdentifier]]]
  | .forStatement =>
    some [.keyword .forKw, .mark .lParen, .node .forControl, .mark .rParen, loopBodySymbol]
  | .forControl =>
    some [.oneOf [
      [modifiersSymbol, .node .typeRef, .identifier, .mark .colon, .anyExpression],
      [loopStartSymbol, .mark .semi, .optional [.anyExpression], .mark .semi,
        .optional (Symbol.separated .anyExpression)]]]
  | .whileStatement => some [.keyword .whileKw, .node .parExpression, loopBodySymbol]
  | .doWhileStatement =>
    some [.keyword .doKw, .node .block, .keyword .whileKw, .node .parExpression, .mark .semi]
  | .tryStatement => some [.keyword .tryKw, .node .block, handlersSymbol]
  | .catchClause =>
    some [.keyword .catchKw, .mark .lParen, modifiersSymbol, .node .typeRef, .identifier,
      .mark .rParen, .node .block]
  | .finallyBlock => some [.keyword .finallyKw, .node .block]
  | .returnStatement => some [.keyword .returnKw, .optional [.anyExpression], .mark .semi]
  | .throwStatement => some [.keyword .throwKw, .anyExpression, .mark .semi]
  | .breakStatement => some [.keyword .breakKw, .mark .semi]
  | .continueStatement => some [.keyword .continueKw, .mark .semi]
  | .dmlStatement =>
    some [.oneOf [
      [.keyword .mergeKw, .anyExpression, .anyExpression, .mark .semi],
      [.keyword .upsertKw, .optional [.node .accessLevel], .anyExpression,
        .optional [.node .qualifiedName], .mark .semi],
      [.oneOf dmlKeywords, .optional [.node .accessLevel], .anyExpression, .mark .semi]]]
  | .accessLevel =>
    some [.expected (.spelled "as"),
      .oneOf [[.expected (.spelled "user")], [.expected (.spelled "system")]]]
  | .runAsStatement =>
    some [.keyword .systemRunAsKw, .mark .lParen, .optional (Symbol.separated .anyExpression),
      .mark .rParen, .node .block]
  | .expressionStatement => some [.anyExpression, .mark .semi]
  | .parExpression => some [.mark .lParen, .anyExpression, .mark .rParen]
  | _ => none

/-! ## Whole trees -/

/-- A law of the children of a node holds of every node of a tree. -/
inductive Tree.Everywhere (law : Rule → List Tree → Prop) : Tree → Prop
  | node {r : Rule} {ts : List Tree} :
      law r ts → (∀ t ∈ ts, Everywhere law t) → Everywhere law (.node r ts)
  | token (t : Token) : Everywhere law (.token t)
  | skipped (t : Token) : Everywhere law (.skipped t)

theorem Tree.Everywhere.mono {law law' : Rule → List Tree → Prop} {t : Tree}
    (h : t.Everywhere law) (hl : ∀ r ts, law r ts → law' r ts) : t.Everywhere law' := by
  induction h with
  | node hr _ ih => exact .node (hl _ _ hr) ih
  | token t => exact .token t
  | skipped t => exact .skipped t

/-- The children are what the production of an expression asks for. -/
def DerivesExpression (r : Rule) (ts : List Tree) : Prop :=
  ∀ ss, r.expressionProduction? = some ss → Derives ss ts

/-- The children are what the production of a statement asks for. -/
def DerivesStatement (r : Rule) (ts : List Tree) : Prop :=
  ∀ ss, r.statementProduction? = some ss → Derives ss ts

end ApexSyntax
