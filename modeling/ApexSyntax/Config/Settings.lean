-- Where the configuration of a path is looked for, and the settings that hold in
-- the end: those of the caller first, then those of the file, then the defaults.
import ApexSyntax.Config.Basic
import ApexSyntax.FileKind
import ApexSyntax.FileSystem.Basic
import ApexSyntax.Text.Utf8

namespace ApexSyntax

/-! ## Files -/

inductive ConfigFormat where
  | toml
  | yaml
  deriving DecidableEq, Repr

/-- The names of configuration files, the preferred one first. -/
def configFiles : List (String × ConfigFormat) :=
  [("apexcheck.toml", .toml), ("apexcheck.yaml", .yaml), ("apexcheck.yml", .yaml)]

def ConfigFormat.read? : ConfigFormat → String → Option Config
  | toml => Config.ofToml?
  | yaml => Config.ofYaml?

/-- The path and the paths above it, as far as they can be read off its text. -/
def Path.lineage (p : Path) : (limit : Nat) → List Path
  | 0 => [p]
  | limit + 1 =>
    match p.parent? with
    | some above => if above.text = "" then [p] else p :: above.lineage limit
    | none => [p]

/-- The path and all paths above it that its text names. -/
def Path.selfAndAbove (p : Path) : List Path := p.lineage p.parts.length

namespace FileSystem

/-- A directory where the search for a configuration ends. -/
def isConfigRoot (fs : FileSystem) (dir : Path) : Bool :=
  configFiles.any (fun f => fs.exists (dir.join f.1)) || fs.exists (dir.join ".git")

/-- The closest directory that holds a configuration file or a repository, or the
start itself. -/
def configRoot (fs : FileSystem) (start : Path) : Path :=
  (start.selfAndAbove.find? fs.isConfigRoot).getD start

/-- The configuration of a directory: that of the preferred file, if it is valid. -/
def config? (fs : FileSystem) (dir : Path) : Option Config :=
  match configFiles.find? fun f => fs.exists (dir.join f.1) with
  | none => none
  | some (name, format) =>
    match fs.read (dir.join name) with
    | .error _ => none
    | .ok bytes => (Text.ofBytes? bytes).bind format.read?

end FileSystem

/-! ## Settings -/

/-- What a caller asks for. -/
structure Request where
  path : Option String := none
  extensions : Option (List String) := none
  output : Option String := none
  project : Option Bool := none
  quiet : Option Bool := none
  deriving DecidableEq, Repr

/-- The settings that a check runs with. -/
structure Settings where
  path : Path
  /-- The directory that the configuration was looked up in. -/
  configRoot : Path
  extensions : List String
  output : String
  project : Bool
  quiet : Bool
  maxDepth : Nat
  deriving DecidableEq, Repr

/-- How far below a root its project descriptor is looked for. -/
def defaultMaxDepth : Nat := 1

namespace FileSystem

/-- Where the search for the configuration of a path starts: a file is configured
by its directory. -/
def configStart (fs : FileSystem) (p : Path) : Path :=
  if fs.isDir p then p
  else
    match p.parent? with
    | some above => if above.text = "" then ⟨"."⟩ else above
    | none => ⟨"."⟩

/-- The settings for a request. An empty list of extensions asks for nothing. -/
def settings (fs : FileSystem) (r : Request) : Settings :=
  let path : Path := ⟨r.path.getD "."⟩
  let configRoot := fs.configRoot (fs.configStart path)
  let c := (fs.config? configRoot).getD {}
  { path
    configRoot
    extensions :=
      ((r.extensions.filter (· ≠ [])).or c.extensions).getD
        (FileKind.default.map FileKind.extension)
    output := (r.output.or c.output).getD "human"
    project := (r.project.or c.project).getD true
    quiet := (r.quiet.or c.quiet).getD false
    maxDepth := c.maxDepth.getD defaultMaxDepth }

end FileSystem

end ApexSyntax
