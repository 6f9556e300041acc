-- The files below a directory. The search goes through linked directories too
-- and remembers that it did, so that files found behind a link can be left out.
import ApexSyntax.FileSystem.Basic

namespace ApexSyntax

/-- A regular file below a directory. -/
structure FoundFile where
  /-- The names from the directory down to the file. -/
  names : List String
  /-- A link lies on the way. -/
  linked : Bool
  deriving DecidableEq, Repr

namespace FoundFile

def under (name : String) (f : FoundFile) : FoundFile := { f with names := name :: f.names }

/-- The path of the file from the path of the directory. A dot for the directory is
not written. -/
def path (f : FoundFile) (base : Path) : Path :=
  f.names.foldl Path.join (if base.components = [.here] then ⟨""⟩ else base)

end FoundFile

namespace FileSystem

/-- The files below a location, through at most `depth` directories. -/
def filesWithin (fs : FileSystem) :
    (depth : Nat) → (linked : Bool) → (linksLeft : Nat) → Location → List FoundFile
  | 0, _, _, _ => []
  | depth + 1, linked, linksLeft, loc =>
    ((fs.top.at? loc).map Node.entries).getD [] |>.flatMap fun (name, n) =>
      match n with
      | .file _ => [⟨[name], linked⟩]
      | .dir _ => (fs.filesWithin depth linked linksLeft (loc ++ [name])).map (·.under name)
      | .link _ =>
        match fs.walk false linksLeft loc [name] with
        | .ok (.taken target (.dir _) left) =>
          (fs.filesWithin depth true left target).map (·.under name)
        | _ => []

/-- A number of directories that no way through the tree exceeds: between two
links lie at most as many as the tree is high. -/
def depthBound (fs : FileSystem) : Nat := (maxLinks + 1) * (fs.top.height + 1)

/-- The path that a search below a root starts from: the root without the dot that
leads it. There is none where dropping the dot leaves nothing. -/
def searchBase? (fs : FileSystem) (root : Path) : Option Path :=
  let start : Path := if root.isAbsolute then ⟨"/"⟩ else ⟨"."⟩
  root.parts.foldl (fun base part => do
    let here ← base
    let next := if here.components = [.here] then ⟨part⟩ else here.join part
    if fs.exists next then some next else none) (some start)

/-- The regular files below a root, in order. Files behind a link are left out
where the search starts from the root as it is spelled. -/
def filesBelow (fs : FileSystem) (root : Path) : List Path :=
  match fs.searchBase? root with
  | none => []
  | some base =>
    match fs.find false base with
    | .ok (.taken loc (.dir _) left) =>
      Path.sort <|
        (fs.filesWithin fs.depthBound false left loc).filterMap fun f =>
          let p := f.path base
          if f.linked ∧ p.startsWith root then none else some p
    | _ => []

end FileSystem

end ApexSyntax
