-- Projects and their packages: a descriptor is looked for below a root, and each
-- directory that it declares is a package.
import ApexSyntax.Check.Failure
import ApexSyntax.Project.Descriptor
import ApexSyntax.Text.Utf8

namespace ApexSyntax

/-- The name of a project's descriptor. -/
def descriptorName : String := "sfdx-project.json"

/-! ## Looking for the descriptor -/

/-- The entries that are searched, by name. Hidden ones are not. -/
def visibleEntries (es : List (String × Node)) : List (String × Node) :=
  (es.filter (!Path.isHidden ·.1)).mergeSort fun a b => a.1 ≤ b.1

/-- The names down to the first descriptor at most `depth` directories below. Links
are not followed. -/
def Node.descriptor? : (depth : Nat) → Node → Option (List String)
  | 0, n => if (n.child? descriptorName).isSome then some [descriptorName] else none
  | depth + 1, n =>
    if (n.child? descriptorName).isSome then some [descriptorName]
    else
      (visibleEntries n.entries).findSome? fun (name, c) =>
        if c.isDir then (c.descriptor? depth).map (name :: ·) else none

namespace FileSystem

/-- The descriptor of a root or of a directory below it. -/
def findDescriptor (fs : FileSystem) (root : Path) (depth : Nat) : Except Failure (Option Path) :=
  match fs.node root with
  | .error e => .error (.unreadable root e)
  | .ok (.dir es) =>
    .ok (((Node.dir es).descriptor? depth).map fun names => names.foldl Path.join root)
  | .ok _ => .error (.unreadable root .notDirectory)

/-! ## Packages -/

def readDescriptor (fs : FileSystem) (p : Path) : Except Failure Descriptor :=
  match fs.read p with
  | .error e => .error (.unreadable p e)
  | .ok bytes =>
    match Text.ofBytes? bytes with
    | none => .error (.unreadable p .invalidText)
    | some text =>
      match Descriptor.read? text with
      | none => .error (.badDescriptor p)
      | some d => .ok d

/-- The declared paths in their order, with slashes. Directories without a path are
dropped. -/
def declaredPaths (fs : FileSystem) (descriptor : Path) : Except Failure (List String) :=
  (fs.readDescriptor descriptor).map fun d =>
    (d.directories.filterMap (·.path)).map Path.slashed

end FileSystem

structure Package where
  /-- The path as it is declared. -/
  declared : String
  path : Path
  deriving DecidableEq, Repr

namespace Package

/-- A package that is declared by a descriptor. Its path starts at the descriptor's
directory. -/
def ofDeclared (descriptor : Path) (declared : String) : Package :=
  { declared
    path := ((descriptor.parent?.getD ⟨"."⟩).join declared).clean }

end Package

namespace FileSystem

def packages (fs : FileSystem) (descriptor : Path) : Except Failure (List Package) :=
  (fs.declaredPaths descriptor).map fun ds => ds.map (Package.ofDeclared descriptor)

/-- The packages of the project at a root. There are none without a descriptor. -/
def projectPackages (fs : FileSystem) (root : Path) (depth : Nat) :
    Except Failure (List Package) :=
  match fs.findDescriptor root depth with
  | .error e => .error e
  | .ok none => .ok []
  | .ok (some descriptor) => fs.packages descriptor

end FileSystem

end ApexSyntax
