-- Changing a file system: directories, files and links are put into the tree,
-- and taken out of it with all that lies below them.
import ApexSyntax.FileSystem.Basic

namespace ApexSyntax

/-- Sets the node of a name; a new name comes last. -/
def setEntry (es : List (String × Node)) (name : String) (n : Node) : List (String × Node) :=
  if es.any (·.1 = name) then es.map fun e => if e.1 = name then (name, n) else e
  else es ++ [(name, n)]

namespace Node

/-- Sets the node at a location, in directories that are made where none stand. -/
def put (n : Node) : Location → Node → Node
  | [], new => new
  | name :: rest, new =>
    dir (setEntry n.entries name (((n.child? name).getD (dir [])).put rest new))

/-- Takes out the node at a location. -/
def erase (n : Node) : Location → Node
  | [] => n
  | [name] => dir (n.entries.filter (·.1 ≠ name))
  | name :: rest =>
    match n.child? name with
    | some c => dir (setEntry n.entries name (c.erase rest))
    | none => n

end Node

namespace FileSystem

/-- An empty file system that works in a directory of one name. -/
def empty (workdir : String) : FileSystem := ⟨.dir [(workdir, .dir [])], [workdir]⟩

def put (fs : FileSystem) (loc : Location) (n : Node) : FileSystem :=
  { fs with top := fs.top.put loc n }

/-- Puts a node where a path leads to a free name. -/
def putNew (fs : FileSystem) (keepLast : Bool) (p : Path) (n : Node) : FileSystem :=
  match fs.find keepLast p with
  | .ok (.free dir name) => fs.put (dir ++ [name]) n
  | _ => fs

/-- Makes a directory and all directories above it. -/
def makeDirs (fs : FileSystem) (p : Path) : FileSystem :=
  (p.parts.foldl (fun (fs, above) part =>
    let here := Path.join above part
    (fs.putNew false here (.dir []), here)) (fs, Path.mk "")).1

/-- Makes the directories above a path. -/
def makeParents (fs : FileSystem) (p : Path) : FileSystem :=
  match p.parent? with
  | some above => fs.makeDirs above
  | none => fs

/-- Writes a file, in place of the file that stands there. -/
def writeFile (fs : FileSystem) (p : Path) (bytes : List UInt8) : FileSystem :=
  let fs := fs.makeParents p
  match fs.find false p with
  | .ok (.taken loc (.file _) _) => fs.put loc (.file bytes)
  | _ => fs.putNew false p (.file bytes)

def writeLink (fs : FileSystem) (p : Path) (target : String) : FileSystem :=
  (fs.makeParents p).putNew true p (.link target)

/-- Takes out what a path names: a link itself, a directory with all below it. -/
def remove (fs : FileSystem) (p : Path) : FileSystem :=
  match fs.find true p with
  | .ok (.taken loc _ _) => { fs with top := fs.top.erase loc }
  | _ => fs

end FileSystem

end ApexSyntax
