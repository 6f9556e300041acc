-- File systems as values: a tree of directories, files and symbolic links, with
-- a working directory. A path leads step by step through the tree, and a link on
-- the way puts its target in its place.
import ApexSyntax.Path

namespace ApexSyntax

/-! ## Trees -/

inductive Node where
  | file (bytes : List UInt8)
  | link (target : String)
  | dir (entries : List (String × Node))
  deriving Repr

/-- Names from the top of the tree down. -/
abbrev Location := List String

namespace Node

def isDir : Node → Bool
  | dir _ => true
  | _ => false

def isFile : Node → Bool
  | file _ => true
  | _ => false

def entries : Node → List (String × Node)
  | dir es => es
  | _ => []

def child? (n : Node) (name : String) : Option Node := n.entries.lookup name

def at? : Node → Location → Option Node
  | n, [] => some n
  | n, name :: rest => (n.child? name).bind (·.at? rest)

mutual

/-- The number of directories that lie inside each other. -/
def height : Node → Nat
  | dir es => heights es + 1
  | file _ => 0
  | link _ => 0

/-- The height of the highest entry. -/
def heights : List (String × Node) → Nat
  | [] => 0
  | (_, n) :: rest => max n.height (heights rest)

end

end Node

/-! ## File systems -/

structure FileSystem where
  top : Node
  workdir : Location
  deriving Repr

/-- Why a path cannot be read. -/
inductive ReadError where
  | notFound
  | notDirectory
  | isDirectory
  | tooManyLinks
  | nameTooLong
  /-- The path holds a NUL character. -/
  | invalidPath
  /-- The bytes are no UTF-8. -/
  | invalidText
  deriving DecidableEq, Repr

def ReadError.message : ReadError → String
  | notFound => "No such file or directory (os error 2)"
  | notDirectory => "Not a directory (os error 20)"
  | isDirectory => "Is a directory (os error 21)"
  | tooManyLinks => "Too many levels of symbolic links (os error 40)"
  | nameTooLong => "File name too long (os error 36)"
  | invalidPath => "file name contained an unexpected NUL byte"
  | invalidText => "stream did not contain valid UTF-8"

/-- Where a path leads. -/
inductive Reached where
  /-- To something in the tree. `linksLeft` more links could be followed. -/
  | taken (location : Location) (node : Node) (linksLeft : Nat)
  /-- To a name that is free in a directory. -/
  | free (directory : Location) (name : String)
  deriving Repr

namespace FileSystem

/-- The number of links that a path may lead through. -/
def maxLinks : Nat := 40

/-- The number of bytes that a name may have. -/
def maxNameSize : Nat := 255

/-! ## Walking -/

/-- Where the parts of a path lead from a location. Every part needs a directory
to stand in. A link is handed to `follow` with the parts behind it; with
`keepLast` the path may end at a link. -/
def walkBy (fs : FileSystem) (keepLast : Bool) (linksLeft : Nat)
    (follow : Location → List String → Except ReadError Reached) :
    Location → List String → Except ReadError Reached
  | loc, [] =>
    match fs.top.at? loc with
    | some n => .ok (.taken loc n linksLeft)
    | none => .error .notFound
  | loc, part :: rest =>
    match fs.top.at? loc with
    | some (.dir es) =>
      if part = "" ∨ part = "." then walkBy fs keepLast linksLeft follow loc rest
      else if part = ".." then walkBy fs keepLast linksLeft follow loc.dropLast rest
      else if maxNameSize < part.utf8ByteSize then .error .nameTooLong
      else
        match es.lookup part with
        | none => if rest = [] then .ok (.free loc part) else .error .notFound
        | some (.link target) =>
          if keepLast ∧ rest = [] then .ok (.taken (loc ++ [part]) (.link target) linksLeft)
          else
            follow (if (Path.mk target).isAbsolute then [] else loc) ((Path.mk target).parts ++ rest)
        | some _ => walkBy fs keepLast linksLeft follow (loc ++ [part]) rest
    | some _ => .error .notDirectory
    | none => .error .notFound

/-- Where the parts of a path lead through at most `linksLeft` links. -/
def walk (fs : FileSystem) (keepLast : Bool) :
    (linksLeft : Nat) → Location → List String → Except ReadError Reached
  | 0 => fs.walkBy keepLast 0 fun _ _ => .error .tooManyLinks
  | n + 1 => fs.walkBy keepLast (n + 1) (fs.walk keepLast n)

/-- Where a path leads. -/
def find (fs : FileSystem) (keepLast : Bool) (p : Path) : Except ReadError Reached :=
  if p.text.toList.contains '\x00' then .error .invalidPath
  else if p.text = "" then .error .notFound
  else fs.walk keepLast maxLinks (if p.isAbsolute then [] else fs.workdir) p.parts

/-! ## Reading -/

/-- What a path names, a link's target in place of the link. -/
def node (fs : FileSystem) (p : Path) : Except ReadError Node :=
  match fs.find false p with
  | .ok (.taken _ n _) => .ok n
  | .ok (.free _ _) => .error .notFound
  | .error e => .error e

def «exists» (fs : FileSystem) (p : Path) : Bool := (fs.node p).isOk

def isDir (fs : FileSystem) (p : Path) : Bool := (fs.node p).toOption.any Node.isDir

/-- The bytes of a file. -/
def read (fs : FileSystem) (p : Path) : Except ReadError (List UInt8) :=
  match fs.node p with
  | .ok (.file bytes) => .ok bytes
  | .ok _ => .error .isDirectory
  | .error e => .error e

/-- The location of what a path names, without links on the way. -/
def realLocation? (fs : FileSystem) (p : Path) : Option Location :=
  match fs.find false p with
  | .ok (.taken loc _ _) => some loc
  | _ => none

end FileSystem

end ApexSyntax
