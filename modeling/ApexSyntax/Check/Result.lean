-- What a check gives: a status, the extensions that were looked for, and the
-- syntax errors. Syntax errors do not change the status.
import ApexSyntax.Diagnostic

namespace ApexSyntax

/-! ## Status -/

inductive Status where
  /-- Every file was parsed. -/
  | clean
  /-- The check was given up before every file was parsed. -/
  | failed
  /-- There is nothing at the path. -/
  | missing
  deriving DecidableEq, Repr

namespace Status

/-- The exit code; worse outcomes have greater codes. -/
def code : Status → Nat
  | clean => 0
  | failed => 1
  | missing => 2

def label : Status → String
  | clean => "ok"
  | failed => "failed"
  | missing => "missing"

def worse (a b : Status) : Status := if a.code < b.code then b else a

/-- The worst of some statuses, clean for none. -/
def worst (l : List Status) : Status := l.foldr worse clean

end Status

/-! ## Results -/

/-- The result of checking one path. -/
structure CheckResult where
  status : Status
  extensions : List String
  errors : List Diagnostic
  deriving DecidableEq, Repr

/-- The result of checking one package of a project, or a whole root. -/
structure PackageResult where
  /-- The name of the project. -/
  name : String
  /-- The path of the package from the root of the project. -/
  path : String
  /-- The path as it is declared, unless the whole root was checked. -/
  package : Option String
  result : CheckResult
  deriving DecidableEq, Repr

namespace PackageResult

def status (r : PackageResult) : Status := r.result.status

def errors (r : PackageResult) : List Diagnostic := r.result.errors

/-- The worst status of some results. -/
def worstStatus (results : List PackageResult) : Status := Status.worst (results.map status)

/-- The code that a program ends with after some results. -/
def exitCode (results : List PackageResult) : Nat := (worstStatus results).code

def errorTotal (results : List PackageResult) : Nat :=
  results.foldr (fun r n => r.errors.length + n) 0

end PackageResult

/-! ## As JSON -/

def CheckResult.members (r : CheckResult) : List (String × Json) :=
  [("status", .ofNat r.status.code), ("extensions", .array (r.extensions.map .string)),
    ("errors", .array (r.errors.map Diagnostic.toJson))]

def CheckResult.toJson (r : CheckResult) : Json := .object r.members

def PackageResult.toJson (r : PackageResult) : Json :=
  .object ([("name", .string r.name), ("path", .string r.path)] ++
    (r.package.map fun p => ("pkg", Json.string p)).toList ++ r.result.members)

/-- Some results and a summary of them. -/
def PackageResult.allToJson (results : List PackageResult) : Json :=
  .object [("results", .array (results.map toJson)),
    ("summary", .object [("status", .ofNat (exitCode results)),
      ("errors", .ofNat (errorTotal results)), ("packages", .ofNat results.length)])]

end ApexSyntax
