-- Checking a project: package by package where a descriptor declares packages,
-- and as a whole where none does.
import ApexSyntax.Check.Files
import ApexSyntax.Project.Packages

namespace ApexSyntax.FileSystem

/-- The name of a root: its last real name, or what its path says when there is
nothing at it. -/
def projectName (fs : FileSystem) (root : Path) : String :=
  match fs.realLocation? root with
  | some loc => loc.getLast?.getD "/"
  | none => root.fileName?.getD root.text

/-- The result of a check of the whole root. -/
def wholeResult (name : String) (checked : CheckResult × List Event) :
    List PackageResult × List Event :=
  ([⟨name, ".", none, checked.1⟩], checked.2)

/-- Checks one package of the project at a root. -/
def checkPackage (fs : FileSystem) (name : String) (root : Path) (kinds : List FileKind)
    (p : Package) : PackageResult × List Event :=
  let (result, events) := fs.checkKinds p.path kinds
  (⟨name, p.path.relative root.clean, some p.declared, result⟩,
    .checkingPackage name p.declared :: events)

/-- Checks the project at a root, whose descriptor lies at most `depth` directories
below it. -/
def checkProject (fs : FileSystem) (root : Path) (extensions : List String) (depth : Nat) :
    List PackageResult × List Event :=
  let name := fs.projectName root
  match FileKind.requested extensions with
  | .error _ => wholeResult name (fs.checkPath root extensions)
  | .ok kinds =>
    if fs.isDir root then
      match fs.projectPackages root depth with
      | .error e =>
        wholeResult name
          (⟨.failed, kinds.map FileKind.extension, []⟩, [.projectStopped name e])
      | .ok [] =>
        let (result, events) := fs.checkKinds root kinds
        wholeResult name (result, .checkingAll name :: events)
      | .ok packages =>
        let checked := packages.map (fs.checkPackage name root kinds)
        (checked.map (·.1), checked.flatMap (·.2))
    else wholeResult name (fs.checkKinds root kinds)

end ApexSyntax.FileSystem
