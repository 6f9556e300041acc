-- Abstract queries and how they are printed. A query has no tokens but those of its
-- tree, so the tokens and the tree are printed together. The words of clauses are not
-- reserved: names stay clear of them.
import ApexSyntax.Proofs.Printing.Expressions
import ApexSyntax.Proofs.Printing.Printed

namespace ApexSyntax

def Constant.piece (c : Constant) : Piece := ⟨c.kind, c.word, false⟩

namespace Soql

open Printed

/-! ## Names and fields -/

/-- A plain name that is no word of a query. -/
structure Label extends Name where
  plain : word ∉ "select" :: "typeof" :: "data" :: clauseWords

def Label.piece (n : Label) : Piece := .named n.word

def aliasPrinted : Option Label → Printed
  | none => nothing
  | some n => flat [n.piece]

/-- A field, with dots between its names. -/
structure Field where
  first : Label
  more : List Label

def Field.printed (f : Field) : Printed :=
  .node .fieldName (flat (f.first.piece :: f.more.flatMap fun n => [.mark .dot, n.piece]))

/-- A list of fields. -/
structure Fields where
  first : Field
  more : List Field

def Fields.printed (fs : Fields) : Printed :=
  list fs.first.printed (fs.more.map Field.printed)

/-- A field, or a function of fields. -/
inductive Column where
  | field (f : Field)
  | call (f : Label) (args : List Column)

/-- The arguments of a function. -/
def arguments : List Printed → Printed
  | [] => nothing
  | x :: xs => list x xs

namespace Column

mutual

def printed : Column → Printed
  | field f => f.printed
  | call f args =>
    .node .soqlFunction
      (join [flat [f.piece, .mark .lParen], arguments (eachPrinted args), mark .rParen])

def eachPrinted : List Column → List Printed
  | [] => []
  | c :: cs => printed c :: eachPrinted cs

end

end Column

/-! ## Bound values -/

/-- A dotted name of the surrounding language. -/
structure Bound where
  first : Name
  more : List Name

def memberPieces (ns : List Name) : List Piece := ns.flatMap fun n => [.mark .dot, .named n.word]

/-- Members lean to the left. -/
def memberOutline (o : Outline) (n : Name) : Outline :=
  .node .dotExpression [o, .mark .dot, .token .identifier n.word]

namespace Bound

def path (b : Bound) : Printed :=
  ⟨.named b.first.word :: memberPieces b.more,
    [b.more.foldl memberOutline (.node .primaryExpression [.token .identifier b.first.word])]⟩

def printed (b : Bound) : Printed := .node .boundExpression (join [mark .colon, b.path])

end Bound

/-! ## Parts without conditions -/

/-- What is selected of one type. -/
structure TypeCase where
  type : Label
  fields : Fields

/-- Fields that depend on the type of a field. -/
structure TypeOf where
  field : Field
  cases : List TypeCase
  other : Option Fields

def casesPrinted : List TypeCase → Option Fields → Printed
  | [], none => word "end"
  | [], some fs => join [word "else", fs.printed, word "end"]
  | c :: cs, other =>
    join [word "when", flat [c.type.piece], word "then", c.fields.printed, casesPrinted cs other]

def TypeOf.printed (t : TypeOf) : Printed :=
  join [word "typeof", t.field.printed, casesPrinted t.cases t.other]

/-- What is selected from. -/
structure Source where
  field : Field
  name : Option Label

def Source.printed (s : Source) : Printed := join [s.field.printed, aliasPrinted s.name]

inductive Direction where
  | asc | desc

def Direction.printed : Option Direction → Printed
  | none => nothing
  | some asc => word "asc"
  | some desc => word "desc"

inductive NullsPlace where
  | first | last

def NullsPlace.printed : Option NullsPlace → Printed
  | none => nothing
  | some first => join [word "nulls", word "first"]
  | some last => join [word "nulls", word "last"]

structure OrderEntry where
  column : Column
  direction : Option Direction
  nulls : Option NullsPlace

def OrderEntry.printed (e : OrderEntry) : Printed :=
  join [e.column.printed, Direction.printed e.direction, NullsPlace.printed e.nulls]

/-- A number of records. -/
inductive Count where
  | number (c : Constant) (isInteger : c.kind = .literal .integer)
  | bound (b : Bound)

def Count.printed : Count → Printed
  | number c _ => flat [c.piece]
  | bound b => b.printed

/-- What a query is for: some use, or an update. -/
inductive Purpose where
  | named (n : Label)
  | update

def Purpose.printed : Purpose → Printed
  | named n => flat [n.piece]
  | update => word "update"

structure Usage where
  /-- The clause says `for`, else `update`. -/
  isFor : Bool
  first : Purpose
  more : List Purpose

def Usage.word (u : Usage) : String := if u.isFor then "for" else "update"

def usageClauses : List Usage → Printed
  | [] => nothing
  | u :: us =>
    join [word u.word, list u.first.printed (u.more.map Purpose.printed), usageClauses us]

/-- The clauses behind the groups. -/
structure Ending where
  ordering : Option (OrderEntry × List OrderEntry)
  limit : Option Count
  offset : Option Count
  allRows : Bool
  usages : List Usage

def orderingPrinted : Option (OrderEntry × List OrderEntry) → Printed
  | none => nothing
  | some (e, es) =>
    .node .orderByClause
      (join [word "order", word "by", list e.printed (es.map OrderEntry.printed)])

/-- A clause with a number of records. -/
def countPrinted (rule : Rule) (w : String) : Option Count → Printed
  | none => nothing
  | some n => .node rule (join [word w, n.printed])

def allRowsPrinted : Bool → Printed
  | false => nothing
  | true => join [word "all", word "rows"]

def usagesPrinted : List Usage → Printed
  | [] => nothing
  | u :: us => .node .forClauses (usageClauses (u :: us))

def Ending.printed (e : Ending) : Printed :=
  join [orderingPrinted e.ordering, countPrinted .limitClause "limit" e.limit,
    countPrinted .offsetClause "offset" e.offset, allRowsPrinted e.allRows,
    usagesPrinted e.usages]

def scopePrinted : Option Label → Printed
  | none => nothing
  | some n => join [word "using", word "scope", flat [n.piece]]

def accessPrinted : Option Label → Printed
  | none => nothing
  | some n => .node .withClause (join [word "with", flat [n.piece]])

/-! ## Conditions and queries -/

/-- The operators between a field and a value. -/
inductive Relation where
  | eq | ne | lessGreater | lt | gt | le | ge | like | isIn | notIn | includes | excludes

def Relation.pieces : Relation → List Piece
  | eq => [.mark .assign]
  | ne => [.mark .ne]
  | lessGreater => [.mark .lessGreater]
  | lt => [.mark .lt]
  | gt => [.mark .gt]
  | le => [.mark .le]
  | ge => [.mark .ge]
  | like => [.spelled "like"]
  | isIn => [.spelled "in"]
  | notIn => [.spelled "not", .spelled "in"]
  | includes => [.spelled "includes"]
  | excludes => [.spelled "excludes"]

inductive Sign where
  | plus | minus

def Sign.mark : Sign → Mark
  | plus => .add
  | minus => .sub

inductive Junction where
  | and | or

def Junction.word : Junction → String
  | and => "and"
  | or => "or"

/-- A literal is no query. -/
structure Literal extends Constant where
  plain : word ≠ "select"

mutual

/-- What is selected, from where, and the clauses behind. -/
structure Query where
  entry : Entry
  entries : List Entry
  source : Source
  sources : List Source
  scope : Option Label
  filter : Option Condition
  access : Option Label
  grouping : Option Grouping
  ending : Ending

/-- An entry of a select list, with the name that it is given. -/
inductive Entry where
  | column (c : Column) (name : Option Label)
  | subQuery (q : Query) (name : Option Label)
  | typeOf (t : TypeOf) (name : Option Label)

/-- Operands joined by `and` and `or`, each of them negated or not. -/
inductive Condition where
  | last (negated : Bool) (o : Operand)
  | link (negated : Bool) (o : Operand) (j : Junction) (c : Condition)

inductive Operand where
  | comparison (c : Column) (r : Relation) (v : Value)
  | parenthesized (c : Condition)

inductive Value where
  | literal (c : Literal)
  | signed (s : Sign) (c : Constant)
  | date (n : Label) (count : Option Constant)
  | bound (b : Bound)
  | list (v : Value) (vs : List Value)
  | query (q : Query)

/-- What records are grouped by, and which groups are kept. -/
structure Grouping where
  column : Column
  columns : List Column
  having : Option Condition

end

def negation : Bool → Printed
  | false => nothing
  | true => word "not"

/-- A named date, with a number of days or months. -/
def datePrinted (n : Label) : Option Constant → Printed
  | none => flat [n.piece]
  | some c => join [flat [n.piece], flat [.mark .colon, c.piece]]

mutual

/-- The tokens and trees inside of a query. -/
def Query.parts : Query → Printed
  | ⟨entry, entries, source, sources, scope, filter, access, grouping, ending⟩ =>
    join [word "select",
      .node .selectList (list entry.printed (Entry.eachPrinted entries)),
      .node .fromClause (join [word "from", list source.printed (sources.map Source.printed)]),
      scopePrinted scope, Condition.filterPrinted filter, accessPrinted access,
      Grouping.printed grouping, ending.printed]

def Entry.printed : Entry → Printed
  | .column c name => .node .selectEntry (join [c.printed, aliasPrinted name])
  | .subQuery q name =>
    .node .selectEntry
      (join [.node .subQuery (join [mark .lParen, .node .query q.parts, mark .rParen]),
        aliasPrinted name])
  | .typeOf t name => .node .selectEntry (join [t.printed, aliasPrinted name])

def Entry.eachPrinted : List Entry → List Printed
  | [] => []
  | e :: es => e.printed :: Entry.eachPrinted es

/-- The tokens and trees inside of a condition. -/
def Condition.terms : Condition → Printed
  | .last negated o => join [negation negated, o.printed]
  | .link negated o j c => join [negation negated, o.printed, word j.word, c.terms]

def Condition.filterPrinted : Option Condition → Printed
  | none => nothing
  | some c => .node .whereClause (join [word "where", .node .logicalExpression c.terms])

def Condition.havingPrinted : Option Condition → Printed
  | none => nothing
  | some c => join [word "having", .node .logicalExpression c.terms]

def Operand.printed : Operand → Printed
  | .comparison c r v => .node .fieldExpression (join [c.printed, flat r.pieces, v.printed])
  | .parenthesized c =>
    join [mark .lParen, .node .logicalExpression c.terms, mark .rParen]

def Value.printed : Value → Printed
  | .literal c => .node .soqlValue (flat [c.piece])
  | .signed s c => .node .soqlValue (flat [.mark s.mark, c.piece])
  | .date n count => .node .soqlValue (datePrinted n count)
  | .bound b => .node .soqlValue b.printed
  | .list v vs =>
    .node .soqlValue
      (join [mark .lParen, list v.printed (Value.eachPrinted vs), mark .rParen])
  | .query q => .node .soqlValue (join [mark .lParen, .node .query q.parts, mark .rParen])

def Value.eachPrinted : List Value → List Printed
  | [] => []
  | v :: vs => v.printed :: Value.eachPrinted vs

def Grouping.printed : Option Grouping → Printed
  | none => nothing
  | some ⟨column, columns, having⟩ =>
    .node .groupByClause
      (join [word "group", word "by", list column.printed (columns.map Column.printed),
        Condition.havingPrinted having])

end

/-- The tokens of a query. -/
def Query.pieces (q : Query) : List Piece := q.parts.pieces

/-- The tree of a query. -/
def Query.outline (q : Query) : Outline := .node .query q.parts.outlines

end Soql

end ApexSyntax
