-- TOML values and tables. A table remembers how it came to be, because that
-- decides what a later line may add to it.
namespace ApexSyntax.Toml

/-- How a table came to be. -/
inductive Origin where
  /-- By the header of a table below it. -/
  | implied
  | header
  /-- By keys with dots. -/
  | dotted
  /-- In braces; nothing can be added to it. -/
  | inline
  deriving DecidableEq, Repr

inductive Value where
  | string (text : String)
  | integer (n : Int)
  | float (written : String)
  | boolean (b : Bool)
  | dateTime (written : String)
  | array (items : List Value)
  | table (origin : Origin) (entries : List (String × Value))
  /-- Tables under one header in double brackets, in order. -/
  | tables (items : List (List (String × Value)))
  deriving Repr

abbrev Table := List (String × Value)

/-- Sets the value of a key; a new key comes last. -/
def Table.set (t : Table) (key : String) (v : Value) : Table :=
  if t.any (·.1 = key) then t.map fun e => if e.1 = key then (key, v) else e else t ++ [(key, v)]

/-- Adds a value under a key of several parts. No key is set twice, and only
tables that dots have made are added to. -/
def Table.add (t : Table) : List String → Value → Option Table
  | [], _ => none
  | [key], v => if (t.lookup key).isSome then none else some (t.set key v)
  | key :: rest, v =>
    match t.lookup key with
    | none => (Table.add [] rest v).map fun below => t.set key (.table .dotted below)
    | some (.table .dotted below) =>
      (Table.add below rest v).map fun below => t.set key (.table .dotted below)
    | some _ => none

/-! ## Headers -/

inductive Header where
  | table (keys : List String)
  | tables (keys : List String)
  deriving Repr

/-- The table at the place of a header, before anything stands under it. -/
def openTable (old : Option Value) : Option Value :=
  match old with
  | none => some (.table .header [])
  | some (.table .implied below) => some (.table .header below)
  | some _ => none

def openTables (old : Option Value) : Option Value :=
  match old with
  | none => some (.tables [[]])
  | some (.tables items) => some (.tables (items ++ [[]]))
  | some _ => none

/-- Opens the place of a header, with the tables above it. -/
def Table.openAt (t : Table) (opening : Option Value → Option Value) : List String → Option Table
  | [] => none
  | [key] => (opening (t.lookup key)).map (t.set key)
  | key :: rest =>
    match t.lookup key with
    | none => (Table.openAt [] opening rest).map fun below => t.set key (.table .implied below)
    | some (.table .inline _) => none
    | some (.table origin below) =>
      (Table.openAt below opening rest).map fun below => t.set key (.table origin below)
    | some (.tables items) =>
      match items.getLast? with
      | none => none
      | some below =>
        (Table.openAt below opening rest).map fun below =>
          t.set key (.tables (items.dropLast ++ [below]))
    | some _ => none

/-- Changes the table that was opened by a header. -/
def Table.changeAt (t : Table) (change : Table → Option Table) : List String → Option Table
  | [] => change t
  | key :: rest =>
    match t.lookup key with
    | some (.table origin below) =>
      (Table.changeAt below change rest).map fun below => t.set key (.table origin below)
    | some (.tables items) =>
      match items.getLast? with
      | none => none
      | some below =>
        (Table.changeAt below change rest).map fun below =>
          t.set key (.tables (items.dropLast ++ [below]))
    | _ => none

/-! ## Documents -/

/-- One line of a document. -/
inductive Line where
  | header (h : Header)
  | pair (keys : List String) (v : Value)
  deriving Repr

/-- The table of some lines. `place` is the header that stands above them. -/
def tableOf (t : Table) (place : List String) : List Line → Option Table
  | [] => some t
  | .header (.table keys) :: rest =>
    (t.openAt openTable keys).bind fun t => tableOf t keys rest
  | .header (.tables keys) :: rest =>
    (t.openAt openTables keys).bind fun t => tableOf t keys rest
  | .pair keys v :: rest =>
    (t.changeAt (·.add keys v) place).bind fun t => tableOf t place rest

end ApexSyntax.Toml
