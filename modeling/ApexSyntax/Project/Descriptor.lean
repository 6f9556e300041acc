-- The descriptor of a project: the package directories that it declares. Keys that
-- are not known are ignored; a known key stands at most once, and a list of values
-- may stand in place of an object.
import ApexSyntax.Json.Read

namespace ApexSyntax

/-- A declared package directory. -/
structure PackageDirectory where
  path : Option String
  deriving DecidableEq, Repr

structure Descriptor where
  directories : List PackageDirectory
  deriving DecidableEq, Repr

namespace Descriptor

/-- The only value of a structure with one field, or `none` for another form. -/
def onlyField? (key : String) : Json → Option (Option Json)
  | .object members =>
    match members.filter (·.1 = key) with
    | [] => some none
    | [member] => some (some member.2)
    | _ => none
  | .array [] => some none
  | .array [item] => some (some item)
  | _ => none

def optionalText? : Option Json → Option (Option String)
  | none => some none
  | some .null => some none
  | some (.string s) => some (some s)
  | some _ => none

def directory? (j : Json) : Option PackageDirectory := do
  return ⟨← optionalText? (← onlyField? "path" j)⟩

def directories? : Option Json → Option (List PackageDirectory)
  | none => some []
  | some .null => some []
  | some (.array items) => items.mapM directory?
  | some _ => none

def ofJson? (j : Json) : Option Descriptor := do
  return ⟨← directories? (← onlyField? "packageDirectories" j)⟩

def read? (text : String) : Option Descriptor := (Json.read? text).bind ofJson?

end Descriptor

end ApexSyntax
