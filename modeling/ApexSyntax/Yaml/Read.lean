-- Reading YAML documents: mappings and sequences by their columns, and flow
-- collections by their brackets.
import ApexSyntax.Yaml.Scalar

namespace ApexSyntax.Yaml

/-! ## Names and tags -/

def isNameChar (c : Char) : Bool := c.isAlphanum || c == '_' || c == '-'

/-- Reads the name of an anchor or an alias behind its mark. -/
def readName (p : Place) : Option (String × Place) :=
  let name := (p.rest.drop 1).takeWhile isNameChar
  let next := p.skip (name.length + 1)
  if name.isEmpty ∨ !(atGap next.rest || next.rest.head?.any fun c => isFlowMark c || c == ':')
  then none
  else some (String.ofList name, next)

/-- Skips the properties in front of a value: its tag, which changes nothing, and
its anchor. -/
def readProperties (flow : Bool) : (fuel : Nat) → Option String → Place →
    Option (Option String × Place)
  | 0, _, _ => none
  | fuel + 1, anchor, p =>
    match p.rest.head? with
    | some '&' =>
      match anchor, readName p with
      | none, some (name, next) => readProperties flow fuel (some name) (next.skipGap flow true)
      | _, _ => none
    | some '!' =>
      let tag := p.rest.takeWhile fun c => !(isBlank c || c == '\n' || (flow && isFlowMark c))
      readProperties flow fuel anchor ((p.skip tag.length).skipGap flow true)
    | _ => some (anchor, p)

def readAlias (p : Place) : Option (Value × Place) := do
  let (name, next) ← readName p
  return (← p.anchors.lookup name, next)

/-! ## Flow collections -/

mutual

/-- Reads a value between brackets or braces. -/
def readFlow : (fuel : Nat) → Place → Option (Value × Place)
  | 0, _ => none
  | fuel + 1, p =>
    match readProperties true 3 none p with
    | none => none
    | some (anchor, p) =>
      let named (r : Option (Value × Place)) := r.map fun (v, next) => (v, next.name anchor v)
      match p.rest.head? with
      | some '[' =>
        named <| (readFlowItems fuel ((p.skip 1).skipGap true true)).map fun (items, next) =>
          (.sequence items, next)
      | some '\x7b' =>
        named <| (readFlowPairs fuel ((p.skip 1).skipGap true true)).map fun (pairs, next) =>
          (.mapping pairs, next)
      | some '"' => named (readQuoted p)
      | some '\x27' => named (readQuoted p)
      | some '*' => readAlias p
      | _ =>
        if startsPlain true p.rest then named (some (readPlain true true 0 p))
        else if p.rest.head?.any fun c => c == ',' || c == ':' || c == ']' || c == '\x7d' then
          if anchor.isSome ∨ p.rest.head? = some ':' then named (some (.absent, p)) else none
        else none

/-- Reads a value with the value that it is a key of, if there is one. -/
def readFlowPair : (fuel : Nat) → Place → Option ((Value × Option Value) × Place)
  | 0, _ => none
  | fuel + 1, p =>
    match readFlow fuel p with
    | none => none
    | some (key, next) =>
      let next := next.skipGap true true
      match next.rest with
      | ':' :: _ =>
        let behind := (next.skip 1).skipGap true true
        if behind.rest.head?.any fun c => c == ',' || c == ']' || c == '\x7d' then
          some ((key, some .absent), behind)
        else
          (readFlow fuel behind).map fun (v, next) => ((key, some v), next.skipGap true true)
      | _ => some ((key, none), next)

/-- Reads the items of a sequence up to its closing bracket. -/
def readFlowItems : (fuel : Nat) → Place → Option (List Value × Place)
  | 0, _ => none
  | fuel + 1, p =>
    if p.rest.head? = some ']' then some ([], p.skip 1)
    else
      match readFlowPair fuel p with
      | none => none
      | some ((key, value), next) =>
        let item := match value with
          | none => key
          | some v => .mapping [(key, v)]
        match next.rest with
        | ']' :: _ => some ([item], next.skip 1)
        | ',' :: _ =>
          (readFlowItems fuel ((next.skip 1).skipGap true true)).map fun (items, next) =>
            (item :: items, next)
        | _ => none

/-- Reads the pairs of a mapping up to its closing brace. -/
def readFlowPairs : (fuel : Nat) → Place → Option (List (Value × Value) × Place)
  | 0, _ => none
  | fuel + 1, p =>
    if p.rest.head? = some '\x7d' then some ([], p.skip 1)
    else
      match readFlowPair fuel p with
      | none => none
      | some ((key, value), next) =>
        let pair := (key, value.getD .absent)
        match next.rest with
        | '\x7d' :: _ => some ([pair], next.skip 1)
        | ',' :: _ =>
          (readFlowPairs fuel ((next.skip 1).skipGap true true)).map fun (pairs, next) =>
            (pair :: pairs, next)
        | _ => none

end

/-! ## Keys -/

/-- Reads a key on one line, and its colon. -/
def readKey? (p : Place) : Option (Value × Place) := do
  let (anchor, start) ← readProperties false 3 none p
  let (key, next) ←
    match start.rest.head? with
    | some '"' => readQuoted start
    | some '\x27' => readQuoted start
    | some '*' => readAlias start
    | some '[' => readFlow (2 * start.rest.length + 4) start
    | some '\x7b' => readFlow (2 * start.rest.length + 4) start
    | _ => if startsPlain false start.rest then some (readPlain false false 0 start) else none
  let colon := next.rest.dropWhile isBlank
  let read := p.rest.take (p.rest.length - colon.length)
  match colon with
  | ':' :: rest =>
    if atGap rest ∧ !read.contains '\n' then
      some (key, ((next.name anchor key).goTo colon).skip 1)
    else none
  | _ => none

def atDash : List Char → Bool
  | '-' :: rest => atGap rest
  | _ => false

def atQuestion : List Char → Bool
  | '?' :: rest => atGap rest
  | _ => false

def atColon : List Char → Bool
  | ':' :: rest => atGap rest
  | _ => false

/-! ## Block collections -/

mutual

/-- Reads a value in a block. It stands behind a mark on the same line, or on a
later line from the column `least` on; a sequence may stand at `leastDash`. With
`keyed` a mapping or a sequence may start on the same line. -/
def readNode (least leastDash : Nat) (keyed : Bool) :
    (fuel : Nat) → Place → Option (Value × Place)
  | 0, _ => none
  | fuel + 1, p =>
    let p := p.skipGap false (!keyed)
    if p.atEnd then some (.absent, p)
    else if p.fresh ∧ p.column < least ∧ !(atDash p.rest ∧ leastDash ≤ p.column) then
      some (.absent, p)
    else if atDash p.rest then
      if keyed ∨ p.fresh then
        (readDashes p.column fuel p).map fun (items, next) => (.sequence items, next)
      else none
    else if (keyed ∨ p.fresh) ∧ (atQuestion p.rest ∨ (readKey? p).isSome) then
      (readEntries p.column fuel p).map fun (pairs, next) => (.mapping pairs, next)
    else
      match readProperties false 3 none p with
      | none => none
      | some (anchor, q) =>
        if q.column ≠ p.column ∨ q.fresh ≠ p.fresh then
          (readNode least leastDash keyed fuel q).map fun (v, next) => (v, next.name anchor v)
        else
          match q.rest.head? with
          | some '[' => readFlow (2 * q.rest.length + 4) q
          | some '\x7b' => readFlow (2 * q.rest.length + 4) q
          | some '"' => readQuoted q
          | some '\x27' => readQuoted q
          | some '*' => readAlias q
          | some '|' => readBlock least q
          | some '>' => readBlock least q
          | _ => if startsPlain false q.rest then some (readPlain false true least q) else none
termination_by structural fuel => fuel

/-- Reads the items of a sequence whose dashes stand at a column. -/
def readDashes (column : Nat) : (fuel : Nat) → Place → Option (List Value × Place)
  | 0, _ => none
  | fuel + 1, p =>
    match readNode (column + 1) (column + 1) true fuel (p.skip 1) with
    | none => none
    | some (item, next) =>
      let next := next.skipGap false true
      if next.atEnd then some ([item], next)
      else if !next.fresh ∨ column < next.column then none
      else if next.column = column ∧ atDash next.rest then
        (readDashes column fuel next).map fun (items, last) => (item :: items, last)
      else some ([item], next)
termination_by structural fuel => fuel

/-- Reads the pairs of a mapping whose keys stand at a column. -/
def readEntries (column : Nat) : (fuel : Nat) → Place → Option (List (Value × Value) × Place)
  | 0, _ => none
  | fuel + 1, p =>
    match readEntry column fuel p with
    | none => none
    | some (pair, next) =>
      let next := next.skipGap false true
      if next.atEnd then some ([pair], next)
      else if !next.fresh ∨ column < next.column then none
      else if next.column = column then
        (readEntries column fuel next).map fun (pairs, last) => (pair :: pairs, last)
      else some ([pair], next)
termination_by structural fuel => fuel

/-- Reads one pair. A key that is no simple one stands behind a question mark. -/
def readEntry (column : Nat) : (fuel : Nat) → Place → Option ((Value × Value) × Place)
  | 0, _ => none
  | fuel + 1, p =>
    if atQuestion p.rest then
      match readNode (column + 1) column true fuel (p.skip 1) with
      | none => none
      | some (key, next) =>
        let next := next.skipGap false true
        if next.fresh ∧ next.column = column ∧ atColon next.rest then
          (readNode (column + 1) column true fuel (next.skip 1)).map fun (v, last) => ((key, v), last)
        else some ((key, .absent), next)
    else
      match readKey? p with
      | none => none
      | some (key, next) =>
        (readNode (column + 1) column false fuel next).map fun (v, last) => ((key, v), last)
termination_by structural fuel => fuel

end

/-! ## Documents -/

/-- Skips the directives in front of a document. They need a mark behind them. -/
def skipDirectives (given : Bool) : (fuel : Nat) → Place → Option Place
  | 0, _ => none
  | fuel + 1, p =>
    let p := p.skipGap false false
    match p.rest with
    | '%' :: rest =>
      if p.column = 0 then
        skipDirectives true fuel { p with rest := rest.dropWhile (· ≠ '\n') }
      else none
    | cs => if given ∧ !(p.column = 0 ∧ atMark '-' cs) then none else some p

/-- The documents end here: behind marks of three dots nothing stands. -/
def isLast : (fuel : Nat) → Place → Bool
  | 0, _ => false
  | fuel + 1, p =>
    let p := p.skipGap false false
    p.rest.isEmpty || (p.fresh && p.column == 0 && atMark '.' p.rest && isLast fuel (p.skip 3))

/-- Line ends of two characters become one. -/
def joinLineEnds : List Char → List Char
  | '\r' :: '\n' :: rest => '\n' :: joinLineEnds rest
  | '\r' :: rest => '\n' :: joinLineEnds rest
  | c :: rest => c :: joinLineEnds rest
  | [] => []

/-- The value of a text that holds one document at most. -/
def read? (text : String) : Option Value := do
  let cs := joinLineEnds text.toList
  let cs := if cs.head? = some '\ufeff' then cs.tail else cs
  if !cs.all isPrintable then none
  let fuel := 4 * cs.length + 8
  let p ← skipDirectives false fuel ⟨cs, 0, true, []⟩
  let marked := p.column = 0 ∧ atMark '-' p.rest
  let p := if marked then p.skip 3 else p
  let (v, next) ← readNode 0 0 (!marked) fuel p
  if isLast fuel next then return v else none

end ApexSyntax.Yaml
