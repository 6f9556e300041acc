-- Errors as lines of JSON. Whatever an error says and wherever its file is, it is one line, and
-- the lines of some errors are read back as these errors, in their order.
import ApexSyntax.Diagnostic
import ApexSyntax.Proofs.Json.RoundTrip

namespace ApexSyntax

/-! ## Reading errors -/

/-- The natural number that some digits write, without zeros in front. -/
def Json.natural? (written : String) : Option Nat :=
  let n := Nat.ofDigitChars 10 written.toList 0
  if toString n = written then some n else none

theorem Json.natural?_toString (n : Nat) : natural? (toString n) = some n := by
  have hvalue : Nat.ofDigitChars 10 (toString n).toList 0 = n := by
    rw [Nat.toString_eq_ofList_toDigits, String.toList_ofList, Nat.ofDigitChars_ten_toDigits]
  rw [natural?, hvalue]
  exact if_pos rfl

namespace Diagnostic

/-- The error that an object tells of, with the members in the order in which they are written. -/
def ofJson? : Json → Option Diagnostic
  | .object [("column", .number column), ("line", .number line), ("message", .string message),
      ("path", .string path)] => do
    return { column := ← Json.natural? column, line := ← Json.natural? line, message, path }
  | _ => none

/-- The errors that the lines of a text tell of. A line feed ends each of them. -/
def ofLines? (text : String) : Option (List Diagnostic) :=
  (Text.lines text).dropLast.mapM fun line => (Json.read? line).bind ofJson?

/-! ## What is written -/

/-- Some errors as they are written, one behind the other. -/
def jsonLines (ds : List Diagnostic) : String := String.join (ds.map jsonLine)

theorem plain_toJson (d : Diagnostic) : Json.Plain d.toJson := by
  refine .object ?_
  simp only [List.forall_mem_cons, List.not_mem_nil, false_implies, implies_true, and_true]
  exact ⟨.number d.column, .number d.line, .string d.message, .string d.path⟩

theorem ofJson?_toJson (d : Diagnostic) : ofJson? d.toJson = some d := by
  simp only [ofJson?, toJson, Json.ofNat, Json.natural?_toString]
  rfl

/-- An error is read back from its line. -/
theorem read?_line (d : Diagnostic) : (Json.read? d.toJson.compact).bind ofJson? = some d := by
  rw [Json.read?_compact d.plain_toJson, Option.bind_some, ofJson?_toJson]

theorem newline_not_mem (d : Diagnostic) : '\n' ∉ d.toJson.compact.toList :=
  Text.not_mem_of_isOneLine d.plain_toJson.legible.oneLine rfl

theorem jsonLines_eq_join (ds : List Diagnostic) :
    jsonLines ds = String.join ((ds.map (·.toJson.compact)).map (· ++ "\n")) := by
  rw [jsonLines, List.map_map]
  rfl

theorem lines_jsonLines (ds : List Diagnostic) :
    Text.lines (jsonLines ds) = ds.map (·.toJson.compact) ++ [""] := by
  rw [jsonLines_eq_join, Text.lines_join_end (List.forall_mem_map.2 fun d _ => d.newline_not_mem)]

theorem count_jsonLines (ds : List Diagnostic) :
    (jsonLines ds).toList.count '\n' = ds.length := by
  rw [jsonLines_eq_join, Text.count_join (List.forall_mem_map.2 fun d _ => d.newline_not_mem),
    List.length_map]

/-- Nothing is lost where errors are written as lines of JSON, whatever characters their messages
and paths have. Every error has just one line feed, and it ends its line; what stands between
line feeds are the objects of the errors, and behind the last line feed stands nothing. Read back
line by line, the objects are these errors in their order. -/
theorem json_lines_lossless (ds : List Diagnostic) :
    (jsonLines ds).toList.count '\n' = ds.length ∧
    Text.lines (jsonLines ds) = ds.map (·.toJson.compact) ++ [""] ∧
    (∀ d ∈ ds, Json.read? d.toJson.compact = some (.object [("column", .ofNat d.column),
      ("line", .ofNat d.line), ("message", .string d.message), ("path", .string d.path)])) ∧
    ofLines? (jsonLines ds) = some ds := by
  refine ⟨count_jsonLines ds, lines_jsonLines ds,
    fun d _ => Json.read?_compact d.plain_toJson, ?_⟩
  have hread : (fun line => (Json.read? line).bind ofJson?) ∘ (·.toJson.compact) = pure :=
    funext read?_line
  rw [ofLines?, lines_jsonLines, List.dropLast_concat, List.mapM_map, hread]
  exact List.mapM_pure.trans (congrArg some ds.map_id)

/-- Quotes, backslashes, line breaks and other control characters are escaped. -/
example : jsonLines [⟨1, 2, "a\n\"\x01", "p\\q"⟩] =
    "\x7b\"column\":1,\"line\":2,\"message\":\"a\\n\\\"\\u0001\",\"path\":\"p\\\\q\"\x7d\n" := by
  decide +kernel

end Diagnostic

end ApexSyntax
