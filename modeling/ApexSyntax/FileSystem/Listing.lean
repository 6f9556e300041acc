-- Listings of a file system: one entry on each line, written as a JSON object.
-- An entry is a file with its text or its bytes, a directory, or a link.
import ApexSyntax.FileSystem.Edit
import ApexSyntax.Json.Read
import ApexSyntax.Text.Utf8

namespace ApexSyntax

/-- What an entry of a listing puts at its path. -/
inductive EntryContent where
  | file (bytes : List UInt8)
  | dir
  | link (target : String)
  deriving DecidableEq, Repr

namespace EntryContent

/-- The bytes of pairs of hexadecimal digits. -/
def hexBytes? : List Char → Option (List UInt8)
  | [] => some []
  | a :: b :: rest => do
    let n ← Json.hexValues? [a, b]
    return n.toUInt8 :: (← hexBytes? rest)
  | _ => none

/-- The content that a member of an entry names. -/
def ofMember? : String × Json → Option EntryContent
  | ("text", .string s) => some (file (Text.toBytes s))
  | ("hex", .string s) => (hexBytes? s.toList).map file
  | ("link", .string target) => some (link target)
  | ("dir", .bool true) => some dir
  | _ => none

end EntryContent

namespace FileSystem

def add (fs : FileSystem) (p : Path) : EntryContent → FileSystem
  | .file bytes => fs.writeFile p bytes
  | .dir => fs.makeDirs p
  | .link target => fs.writeLink p target

/-- Adds an entry, unless its line is none. -/
def addLine? (fs : FileSystem) (line : String) : Option FileSystem :=
  match Json.read? line with
  | some (.object members) =>
    match members.lookup "path", members.findSome? EntryContent.ofMember? with
    | some (.string p), some content => some (fs.add ⟨p⟩ content)
    | _, _ => none
  | _ => none

/-- The file system of a listing, or the first line that is no entry. -/
def ofLines (fs : FileSystem) : List String → Except String FileSystem
  | [] => .ok fs
  | line :: rest =>
    match fs.addLine? line with
    | some fs => fs.ofLines rest
    | none => .error line

end FileSystem

end ApexSyntax
