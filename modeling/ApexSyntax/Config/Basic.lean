-- The settings that a configuration file may give, read from TOML or from YAML.
-- Keys that are no settings are ignored; a setting of the wrong type, or given
-- twice, makes the whole file invalid.
import ApexSyntax.Toml.Read
import ApexSyntax.Yaml.Read

namespace ApexSyntax

structure Config where
  extensions : Option (List String) := none
  output : Option String := none
  project : Option Bool := none
  quiet : Option Bool := none
  maxDepth : Option Nat := none
  deriving DecidableEq, Repr

namespace Config

/-- The greatest depth that can be given. -/
def depthLimit : Nat := 18446744073709551616

/-- The value of a key with some spellings. Gives `none` for a key that stands more
than once. -/
def field? (entries : List (String × α)) (spellings : List String) : Option (Option α) :=
  match entries.filter fun e => spellings.contains e.1 with
  | [] => some none
  | [e] => some (some e.2)
  | _ => none

/-- A setting that is read from its value, where it has one. -/
def setting? (entries : List (String × α)) (spellings : List String) (read : α → Option β) :
    Option (Option β) :=
  match field? entries spellings with
  | none => none
  | some none => some none
  | some (some v) => (read v).map some

/-! ## From TOML -/

def tomlText? : Toml.Value → Option String
  | .string s => some s
  | _ => none

def tomlTexts? : Toml.Value → Option (List String)
  | .array items => items.mapM tomlText?
  | _ => none

def tomlBool? : Toml.Value → Option Bool
  | .boolean b => some b
  | _ => none

def tomlDepth? : Toml.Value → Option Nat
  | .integer n => if 0 ≤ n ∧ n < depthLimit then some n.toNat else none
  | _ => none

def ofTable? (t : Toml.Table) : Option Config := do
  return {
    extensions := ← setting? t ["extensions"] tomlTexts?
    output := ← setting? t ["output"] tomlText?
    project := ← setting? t ["project"] tomlBool?
    quiet := ← setting? t ["quiet"] tomlBool?
    maxDepth := ← setting? t ["max_depth", "maxDepth"] tomlDepth? }

def ofToml? (text : String) : Option Config := (Toml.read? text).bind ofTable?

/-! ## From YAML -/

/-- A plain scalar that stands for no value. -/
def isNull : Yaml.Value → Bool
  | .scalar true text => ["", "~", "null", "Null", "NULL"].contains text
  | _ => false

/-- Every scalar is a text. -/
def yamlText? : Yaml.Value → Option String
  | .scalar _ text => some text
  | _ => none

def yamlTexts? : Yaml.Value → Option (List String)
  | .sequence items => items.mapM yamlText?
  | _ => none

def yamlBool? : Yaml.Value → Option Bool
  | .scalar true text =>
    if ["true", "True", "TRUE"].contains text then some true
    else if ["false", "False", "FALSE"].contains text then some false
    else none
  | _ => none

/-- The number of some digits. Decimal ones do not start with a needless zero. -/
def yamlNatural? : List Char → Option Nat
  | '0' :: 'x' :: digits => Toml.natural? 16 digits
  | '0' :: 'o' :: digits => Toml.natural? 8 digits
  | '0' :: 'b' :: digits => Toml.natural? 2 digits
  | ['0'] => some 0
  | '0' :: _ => none
  | digits => Toml.natural? 10 digits

def yamlDepth? : Yaml.Value → Option Nat
  | .scalar true text =>
    let cs := text.toList
    let cs := if cs.head? = some '+' then cs.tail else cs
    (yamlNatural? cs).filter (· < depthLimit)
  | _ => none

/-- A setting that may be given as null. -/
def yamlSetting? (entries : List (String × Yaml.Value)) (spellings : List String)
    (read : Yaml.Value → Option β) : Option (Option β) :=
  match field? entries spellings with
  | none => none
  | some none => some none
  | some (some v) => if isNull v then some none else (read v).map some

def ofPairs? (pairs : List (Yaml.Value × Yaml.Value)) : Option Config := do
  let entries ← pairs.mapM fun (key, v) => (yamlText? key).map (·, v)
  return {
    extensions := ← yamlSetting? entries ["extensions"] yamlTexts?
    output := ← yamlSetting? entries ["output"] yamlText?
    project := ← yamlSetting? entries ["project"] yamlBool?
    quiet := ← yamlSetting? entries ["quiet"] yamlBool?
    maxDepth := ← yamlSetting? entries ["max_depth", "maxDepth"] yamlDepth? }

def ofYaml? (text : String) : Option Config :=
  match Yaml.read? text with
  | some (.mapping pairs) => ofPairs? pairs
  | some (.scalar true "") => some {}
  | _ => none

end Config

end ApexSyntax
