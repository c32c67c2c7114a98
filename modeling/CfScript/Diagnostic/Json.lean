import CfScript.Diagnostic.Basic
import CfScript.Text.JsonText

/-!
# Records in JSON

The records of diagnostics are written as a JSON list of objects, each field on a line of its own, two
spaces deeper for each level. The empty list is written without a line break.
-/

namespace CfScript.Diagnostic

/-- The fields of a record with their values in JSON. -/
def Record.jsonFields (r : Record) : List (String × String) :=
  [("line", toString r.line), ("startOffset", toString r.startOffset),
    ("endOffset", toString r.endOffset), ("context", Text.jsonString r.context),
    ("message", Text.jsonString r.message)]

/-- A record as a JSON object in a list. -/
def Record.json (r : Record) : String :=
  let field : String × String → String := fun (key, value) =>
    "    " ++ Text.jsonString key ++ ": " ++ value
  "  \x7b\n" ++ String.intercalate ",\n" (r.jsonFields.map field) ++ "\n  \x7d"

/-- Records as a JSON list. -/
def recordsJson (records : List Record) : String :=
  if records.isEmpty then "[]"
  else "[\n" ++ String.intercalate ",\n" (records.map (·.json)) ++ "\n]"

end CfScript.Diagnostic
