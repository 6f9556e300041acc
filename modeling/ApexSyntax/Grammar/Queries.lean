-- The parts of queries and searches. Their keywords are not reserved, so
-- clauses are known by the spelling of a word. Expressions of the surrounding
-- language are bound by a colon.
import ApexSyntax.Grammar.Step

namespace ApexSyntax

open Step

/-! ## Words -/

/-- Words that end an entry of a query instead of naming it. -/
def clauseWords : List String :=
  ["from", "where", "with", "group", "order", "limit", "offset", "for", "update", "using",
    "having", "all", "and", "or", "not", "like", "in", "includes", "excludes", "asc", "desc",
    "nulls", "first", "last", "when", "then", "else", "end"]

/-- A name for the entry before comes next. -/
def Lookahead.aliasAhead (v : Lookahead) : Bool :=
  v.isIdentifier 0 && !clauseWords.contains (v.word 0)

def Lookahead.atAnyWord (v : Lookahead) (words : List String) : Bool := words.contains (v.word 0)

/-- Marks that compare a field with a value. -/
def Kind.comparesFields : Kind → Bool
  | mark .assign | mark .ne | mark .lessGreater | mark .lt | mark .gt | mark .le | mark .ge => true
  | _ => false

/-! ## Parts -/

/-- The steps of an expression of the surrounding language behind a colon. -/
def boundSteps : List Step := [start .boundExpression, take 1, expr .unary, finish]

/-- The steps inside of an entry of a select list. -/
def selectEntrySteps (v : Lookahead) : List Step :=
  if v.atMark .lParen then
    [start .subQuery, take 1, soql .query, expect (.mark .rParen), finish]
  else if v.atWord "typeof" then [take 1, soql .fieldName, soql .typeCases]
  else [soql .function]

/-- The steps inside of a value. -/
def valueSteps (v : Lookahead) : List Step :=
  if v.atMark .colon then boundSteps
  else if v.atMark .lParen then [take 1, soql .valueList, expect (.mark .rParen)]
  else if (v.atMark .sub || v.atMark .add) && (v.kind 1).isLiteral then [take 2]
  else if (v.kind 0).isLiteral then [take 1]
  else if v.isIdentifier 0 then [take 1, soql .dateCount]
  else [complain .noAlternative]

/-- The steps of a clause that starts with a word, if the word comes next. -/
def clause (v : Lookahead) (word : String) (steps : List Step) : List Step :=
  if v.atWord word then steps else []

/-- The steps that a part of a query consists of. -/
def QueryPart.expand (v : Lookahead) : QueryPart → List Step
  | .query =>
    [start .query, expect (.spelled "select"),
      start .selectList, soql .selectEntry, soql .moreSelectEntries, finish,
      start .fromClause, expect (.spelled "from"), soql .source, soql .moreSources, finish,
      soql .scope, soql .filter, soql .access, soql .grouping, soql .ordering,
      soql .limit, soql .offset, soql .allRows, soql .usage, finish]
  | .selectEntry => start .selectEntry :: selectEntrySteps v ++ [soql .alias, finish]
  | .moreSelectEntries =>
    if v.atMark .comma then [take 1, soql .selectEntry, soql .moreSelectEntries] else []
  | .typeCases =>
    if v.atWord "when" then
      [take 1, expect .word, expect (.spelled "then"), soql .fieldList, soql .typeCases]
    else if v.atWord "else" then [take 1, soql .fieldList, expect (.spelled "end")]
    else [expect (.spelled "end")]
  | .alias => if v.aliasAhead then [take 1] else []
  | .source => [soql .fieldName, soql .alias]
  | .moreSources =>
    if v.atMark .comma then [take 1, soql .source, soql .moreSources] else []
  | .fieldName => [start .fieldName, expect .word, soql .dottedWords, finish]
  | .dottedWords =>
    if v.atMark .dot && v.isWord 1 then [take 2, soql .dottedWords] else []
  | .fieldList => [soql .fieldName, soql .moreFields]
  | .moreFields =>
    if v.atMark .comma then [take 1, soql .fieldName, soql .moreFields] else []
  | .function =>
    if v.isWord 0 && v.kind 1 == .mark .lParen then
      [start .soqlFunction, take 2, soql .functionArguments, expect (.mark .rParen), finish]
    else [soql .fieldName]
  | .functionArguments =>
    if v.atMark .rParen then [] else [soql .function, soql .moreFunctions]
  | .moreFunctions =>
    if v.atMark .comma then [take 1, soql .function, soql .moreFunctions] else []
  | .scope => clause v "using" [take 1, expect (.spelled "scope"), expect .word]
  | .filter => clause v "where" [start .whereClause, take 1, soql .condition, finish]
  | .condition =>
    [start .logicalExpression, soql .negation, soql .conditionOperand, soql .moreConditions,
      finish]
  | .negation => clause v "not" [take 1]
  | .conditionOperand =>
    if v.atMark .lParen then [take 1, soql .condition, expect (.mark .rParen)]
    else [soql .comparison]
  | .moreConditions =>
    if v.atAnyWord ["and", "or"] then
      [take 1, soql .negation, soql .conditionOperand, soql .moreConditions]
    else []
  | .comparison =>
    [start .fieldExpression, soql .function, soql .comparisonOperator, soql .value, finish]
  | .comparisonOperator =>
    if (v.kind 0).comparesFields then [take 1]
    else if v.atWord "not" && v.word 1 == "in" then [take 2]
    else if v.atAnyWord ["like", "in", "includes", "excludes"] then [take 1]
    else [complain (.mismatch "\x7b'=', '!=', '<', '>', '<=', '>=', 'LIKE', 'IN'\x7d")]
  | .value => start .soqlValue :: valueSteps v ++ [finish]
  | .valueList =>
    if v.atWord "select" then [soql .query] else [soql .value, soql .moreValues]
  | .moreValues =>
    if v.atMark .comma then [take 1, soql .value, soql .moreValues] else []
  | .dateCount =>
    if v.atMark .colon && (v.kind 1).isLiteral then [take 2] else []
  | .access => clause v "with" [start .withClause, take 1, soql .accessFilter, finish]
  | .accessFilter =>
    if v.atWord "data" then
      [take 1, expect (.spelled "category"), soql .category, soql .moreCategories]
    else [expect .word]
  | .category => [soql .fieldName, expect .word, soql .value]
  | .moreCategories => clause v "and" [take 1, soql .category, soql .moreCategories]
  | .grouping =>
    clause v "group"
      [start .groupByClause, take 1, expect (.spelled "by"), soql .function,
        soql .moreFunctions, soql .having, finish]
  | .having => clause v "having" [take 1, soql .condition]
  | .ordering =>
    clause v "order"
      [start .orderByClause, take 1, expect (.spelled "by"), soql .orderEntry,
        soql .moreOrderEntries, finish]
  | .orderEntry => [soql .function, soql .direction, soql .nulls]
  | .moreOrderEntries =>
    if v.atMark .comma then [take 1, soql .orderEntry, soql .moreOrderEntries] else []
  | .direction => if v.atAnyWord ["asc", "desc"] then [take 1] else []
  | .nulls => clause v "nulls" [take 1, soql .nullsPlace]
  | .nullsPlace =>
    if v.atAnyWord ["first", "last"] then [take 1]
    else [complain (.mismatch "\x7b'FIRST', 'LAST'\x7d")]
  | .limit => clause v "limit" [start .limitClause, take 1, soql .count, finish]
  | .offset => clause v "offset" [start .offsetClause, take 1, soql .count, finish]
  | .count =>
    if v.atMark .colon then boundSteps else [expect (.kind (.literal .integer))]
  | .allRows => clause v "all" [take 1, expect (.spelled "rows")]
  | .usage =>
    if v.atAnyWord ["for", "update"] then [start .forClauses, soql .usageClauses, finish] else []
  | .usageClauses =>
    if v.atAnyWord ["for", "update"] then
      [take 1, expect .word, soql .moreUsages, soql .usageClauses]
    else []
  | .moreUsages =>
    if v.atMark .comma then [take 1, expect .word, soql .moreUsages] else []
  | .search =>
    [start .soslQuery, expect (.spelled "find"), soql .searchTerm, soql (.searchRest 0), finish]
  | .searchTerm =>
    if v.kind 0 == .literal .string then [take 1]
    else if v.atMark .colon then boundSteps
    else if v.atMark .lBrace then [soql .searchBraces]
    else [complain (.mismatch "StringLiteral")]
  | .searchBraces =>
    if v.atMark .rBrace || v.kind 0 == .eof then [expect (.mark .rBrace)]
    else [take 1, soql .searchBraces]
  | .searchRest depth =>
    if v.kind 0 == .eof || (v.atMark .rBrack && depth == 0) then []
    else if v.atMark .lParen then [take 1, soql (.searchRest (depth + 1))]
    else if v.atMark .rParen then [take 1, soql (.searchRest (depth - 1))]
    else if v.atMark .colon then boundSteps ++ [soql (.searchRest depth)]
    else [take 1, soql (.searchRest depth)]

end ApexSyntax
