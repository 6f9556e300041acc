-- Printing results: for people, with or without colours, or as JSON.
import ApexSyntax.Check.Result

namespace ApexSyntax

/-! ## Colours -/

inductive Style where
  | bold
  | red
  | green
  | yellow
  deriving DecidableEq, Repr

namespace Style

/-- The sequence that turns a style on. -/
def on : Style → String
  | bold => "\x1b[1m"
  | red => "\x1b[31m"
  | green => "\x1b[32m"
  | yellow => "\x1b[33m"

/-- The sequence that turns a style off again. -/
def off : Style → String
  | bold => "\x1b[0m"
  | _ => "\x1b[39m"

/-- A text in a style, where colours are wanted. -/
def paint (color : Bool) (s : Style) (text : String) : String :=
  if color then s.on ++ text ++ s.off else text

end Style

/-! ## For people -/

/-- Where an error stands, as seen from the root of the project. -/
def PackageResult.location (r : PackageResult) (d : Diagnostic) : String :=
  (if r.path = "." then d.path else r.path ++ "/" ++ d.path) ++ ":" ++ toString d.line ++ ":" ++
    toString d.column

namespace Report

def errorLine (color : Bool) (r : PackageResult) (d : Diagnostic) : String :=
  Style.red.paint color "✖" ++ " " ++
    Style.bold.paint color (Style.red.paint color "⟦error⟧") ++ " " ++
    Style.bold.paint color (r.location d) ++ " — " ++ d.message

/-- What was checked: the project, and the package if there is one. -/
def scope (r : PackageResult) : String :=
  "[" ++ r.name ++ "]" ++ (r.package.map (" " ++ ·)).getD ""

def style (r : PackageResult) : Style :=
  match r.status with
  | .clean => if r.errors.isEmpty then .green else .yellow
  | _ => .red

def resultLine (color : Bool) (r : PackageResult) : String :=
  Style.bold.paint color <| (style r).paint color <|
    "— " ++ scope r ++ " — status=" ++ r.status.label ++ " errors=" ++ toString r.errors.length

/-- The lines of a result: one for each error, and one for the result. -/
def lines (color : Bool) (r : PackageResult) : List String :=
  r.errors.map (errorLine color r) ++ [resultLine color r]

def human (color : Bool) (results : List PackageResult) : String :=
  String.join ((results.flatMap (lines color)).map (· ++ "\n"))

theorem human_cons (color : Bool) (r : PackageResult) (rest : List PackageResult) :
    human color (r :: rest) = String.join ((r.errors.map (errorLine color r)).map (· ++ "\n")) ++
      (resultLine color r ++ "\n" ++ human color rest) := by
  rw [human, human, List.flatMap_cons, lines]
  simp only [List.map_append, String.join_append, String.join_cons, List.map_cons, List.map_nil,
    String.join_nil, String.append_empty, String.append_assoc]

/-! ## In a format -/

def json (results : List PackageResult) : String :=
  (PackageResult.allToJson results).pretty 0 ++ "\n"

/-- The results in the format of a name. Every name but one is for people. -/
def print (output : String) (color : Bool) (results : List PackageResult) : String :=
  if output = "json" then json results else human color results

end Report

end ApexSyntax
