-- Checking files: one file, a list of files kind by kind, and all files below a
-- root. A file that cannot be read ends the check, and what was found before it
-- is kept.
import ApexSyntax.Check.Event
import ApexSyntax.Check.Result
import ApexSyntax.Check.Source
import ApexSyntax.FileSystem.Below
import ApexSyntax.Text.Utf8

namespace ApexSyntax

/-- The file's name has the extension of a kind. -/
def Path.hasKind (p : Path) (k : FileKind) : Bool := p.extension?.any fun e => "." ++ e = k.extension

/-- What a check has found and told so far. -/
structure Progress where
  errors : List Diagnostic := []
  events : List Event := []
  deriving DecidableEq, Repr

namespace Progress

def tell (s : Progress) (e : Event) : Progress := { s with events := s.events ++ [e] }

/-- Adds the errors of a file. -/
def add (s : Progress) (path : String) (errors : List Diagnostic) : Progress where
  errors := s.errors ++ errors
  events := s.events ++ errors.map .echoed ++
    if errors.isEmpty then [] else [.foundErrors errors.length path]

end Progress

namespace FileSystem

/-- The syntax errors of a file, under its path as it is seen from a root. Bytes
that are no text are replaced, never refused. -/
def checkFile (fs : FileSystem) (root file : Path) (kind : FileKind) :
    Except Failure (List Diagnostic) :=
  match fs.read file with
  | .error e => .error (.unreadable file e)
  | .ok bytes => checkSource (file.relative root) (Text.ofBytes bytes) kind false

/-- Checks files of one kind. Gives the failure that ended it, if there was one. -/
def checkEach (fs : FileSystem) (root : Path) (kind : FileKind) :
    List Path → Progress → Progress × Option Failure
  | [], s => (s, none)
  | file :: rest, s =>
    match fs.checkFile root file kind with
    | .error e => (s, some e)
    | .ok errors => fs.checkEach root kind rest (s.add (file.relative root) errors)

/-- Checks the files of each kind, kind by kind. -/
def checkFiles (fs : FileSystem) (root : Path) (files : List Path) :
    List FileKind → Progress → Progress × Option Failure
  | [], s => (s, none)
  | kind :: rest, s =>
    let own := files.filter (·.hasKind kind)
    match fs.checkEach root kind own s with
    | (s, some e) => (s, some e)
    | (s, none) => fs.checkFiles root files rest (s.tell (.parsedFiles own.length kind root))

/-- Checks all files of some kinds below a root. -/
def checkKinds (fs : FileSystem) (root : Path) (kinds : List FileKind) :
    CheckResult × List Event :=
  let extensions := kinds.map FileKind.extension
  if fs.exists root then
    match fs.checkFiles root (fs.filesBelow root) kinds {} with
    | (s, none) => (⟨.clean, extensions, s.errors⟩, s.events)
    | (s, some e) => (⟨.failed, extensions, s.errors⟩, s.events ++ [.stopped root e])
  else (⟨.missing, extensions, []⟩, [.missingRoot root])

/-- Checks all files below a root that have one of some extensions. -/
def checkPath (fs : FileSystem) (root : Path) (extensions : List String) :
    CheckResult × List Event :=
  match FileKind.requested extensions with
  | .error e => (⟨.failed, extensions, []⟩, [.refused (.unknownExtension e)])
  | .ok kinds => fs.checkKinds root kinds

end FileSystem

end ApexSyntax
