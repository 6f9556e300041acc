-- The kinds of source files. A kind is told by the extension of a file's name,
-- and decides what the text is parsed as.
import ApexSyntax.Grammar.Parser

namespace ApexSyntax

inductive FileKind where
  /-- One class, interface or enumeration. -/
  | classFile
  | triggerFile
  /-- Statements and members in any order. -/
  | script
  deriving DecidableEq, Repr

namespace FileKind

def all : List FileKind := [classFile, triggerFile, script]

/-- The kinds that are checked when none is asked for. -/
def default : List FileKind := [classFile, triggerFile]

/-- The extension with its leading dot. -/
def extension : FileKind → String
  | classFile => ".cls"
  | triggerFile => ".trigger"
  | script => ".apex"

/-- What a file of this kind is parsed as. -/
def entry : FileKind → Entry
  | classFile => .compilationUnit
  | triggerFile => .triggerUnit
  | script => .anonymousUnit

/-! ## From an extension -/

/-- An extension with a leading dot, whether or not it is written with one. -/
def dotted (written : String) : String :=
  if written.toList.head? = some '.' then written else "." ++ written

/-- The kind of an extension. Case matters, the leading dot does not. -/
def ofExtension? (written : String) : Option FileKind :=
  all.find? fun k => k.extension = dotted written

/-- The kinds of some extensions, or the first extension that is unknown. -/
def ofExtensions : List String → Except String (List FileKind)
  | [] => .ok []
  | written :: rest =>
    match ofExtension? written with
    | none => .error written
    | some k => (ofExtensions rest).map (k :: ·)

/-- The kinds that a request asks for, in its order. An empty request asks for
the default kinds. -/
def requested : List String → Except String (List FileKind)
  | [] => .ok default
  | extensions => ofExtensions extensions

/-! ## Laws -/

@[simp] theorem ofExtension?_extension (k : FileKind) : ofExtension? k.extension = some k := by
  cases k <;> decide +kernel

theorem length_ofExtensions {written : List String} {kinds : List FileKind}
    (h : ofExtensions written = .ok kinds) : kinds.length = written.length := by
  induction written generalizing kinds with
  | nil => cases h; rfl
  | cons e rest ih =>
    rw [ofExtensions] at h
    split at h
    · cases h
    · cases hr : ofExtensions rest with
      | error e => rw [hr] at h; cases h
      | ok ks => rw [hr] at h; cases h; simp [ih hr]

end FileKind

end ApexSyntax
