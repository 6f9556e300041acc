-- What a parser has to do: steps. The parts of the grammar are steps too; a
-- part is replaced by the steps that it consists of once it is its turn, by
-- looking at the tokens ahead.
import ApexSyntax.Grammar.Lookahead
import ApexSyntax.Tree.Rule

namespace ApexSyntax

/-! ## Expected tokens -/

/-- A token that the grammar calls for. -/
inductive Expected where
  | kind (k : Kind)
  /-- A name, or a keyword that serves as one. -/
  | identifier
  /-- A name or any keyword. -/
  | word
  /-- A word with a spelling. -/
  | spelled (word : String)
  deriving DecidableEq, Repr

namespace Expected

def mark (m : Mark) : Expected := kind (.mark m)

def keyword (k : Keyword) : Expected := kind (.keyword k)

def accepts : Expected → Token → Bool
  | kind k, t => t.kind == k
  | identifier, t => t.isIdentifier
  | word, t => t.isWord
  | spelled w, t => t.word == w

/-- The name of what is expected in a message. -/
def display : Expected → String
  | kind k => k.display
  | identifier | word => "Identifier"
  | spelled w => "'" ++ w ++ "'"

/-- What may be left out before a token: a semicolon or a closing brace, before
a token that starts the next statement or member. -/
def mayBeLeftOutBefore : Expected → Token → Bool
  | kind (.mark .semi), t => t.isWord || t.kind.startsExpression
  | kind (.mark .rBrace), t => t.isWord || t.kind.startsExpression
  | _, _ => false

end Expected

/-- What is wrong with the current token when nothing is expected by itself. -/
inductive Complaint where
  | noAlternative
  | mismatch (expected : String)
  deriving DecidableEq, Repr

/-! ## Parts of the grammar -/

/-- Types and dotted names. -/
inductive TypePart where
  | type | name | arguments | list | moreTypes | dottedNames | dimensions
  deriving DecidableEq, Repr

/-- Expressions. A part with a mark stands behind its first operand, which it
takes into its node when an operator follows. -/
inductive ExprPart where
  | expression | assignment (mark : Nat) | conditional | alternatives (mark : Nat)
  | binary (level : Nat) | operators (level mark : Nat)
  | unary | operand | suffixes (mark : Nat) | member | primary | literal
  | arguments | argumentList | list | moreExpressions
  | creator | creatorForm | arraySize | arrayValues
  | initializerValues (mark : Nat) | initializerRest (mark : Nat) | mapEntries
  deriving DecidableEq, Repr

/-- Queries and searches. -/
inductive QueryPart where
  | query | selectEntry | moreSelectEntries | typeCases | alias | source | moreSources
  | fieldName | dottedWords | fieldList | moreFields
  | function | functionArguments | moreFunctions
  | scope | filter | condition | negation | conditionOperand | moreConditions
  | comparison | comparisonOperator | value | valueList | moreValues | dateCount
  | access | accessFilter | category | moreCategories
  | grouping | having | ordering | orderEntry | moreOrderEntries | direction | nulls | nullsPlace
  | limit | offset | count | allRows | usage | usageClauses | moreUsages
  | search | searchTerm | searchBraces | searchRest (depth : Nat)
  deriving DecidableEq, Repr

/-- Statements. -/
inductive StmtPart where
  | block | blockStatements | statement | loopBody | localVariables | parenthesized
  | elseBranch | whenClauses | moreWhenClauses | whenValue | whenLiteral | moreWhenLiterals
  | whenAtom
  | loopControl | loopStart | loopCondition | loopUpdate
  | handlers | moreHandlers | returnValue | accessLevel | upsertKey | runAsUsers
  deriving DecidableEq, Repr

/-- Units, declarations and members. -/
inductive DeclPart where
  | compilationUnit | triggerUnit | anonymousUnit | anonymousMembers
  | triggerCase | moreTriggerCases | triggerMoment | triggerEvent | triggerBlock
  | triggerMembers | blockMember (rule : Rule)
  | declaration | declaredType | modifiers | annotationArguments | annotationValues
  | elementValue | elementValues | qualifiedName
  | superclass | interfaces | classBody | classMembers | classMember | member
  | method | resultType | methodBody | field
  | variables | variable | variableValue | moreVariables
  | property | accessors | accessor | accessorKind | accessorBody
  | parameters | parameterList | parameter | moreParameters
  | superinterfaces | interfaceMembers | interfaceMethod
  | enumConstants | moreConstants
  deriving DecidableEq, Repr

/-! ## Steps -/

inductive Step where
  /-- Opens a node. -/
  | start (r : Rule)
  /-- Opens a node around the children since a mark. -/
  | wrap (mark : Nat) (r : Rule)
  /-- Closes the innermost open node. -/
  | finish
  /-- Matches the next `n` tokens, whatever they are. -/
  | take (n : Nat)
  /-- Matches the current token if it is a mark. -/
  | takeIf (m : Mark)
  /-- Skips the current token. -/
  | skip
  /-- Skips the current token if nothing was read since a position. -/
  | progress (since : Nat)
  | expect (e : Expected)
  /-- Goes on only when the expected token is there. -/
  | expectThen (e : Expected) (next : Step)
  | complain (c : Complaint)
  /-- Nothing but the end of the text may follow. -/
  | endOfText
  /-- Skips all tokens up to the end. -/
  | skipRest
  | typ (p : TypePart)
  | expr (p : ExprPart)
  | soql (p : QueryPart)
  | stmt (p : StmtPart)
  | decl (p : DeclPart)
  deriving DecidableEq, Repr

end ApexSyntax
