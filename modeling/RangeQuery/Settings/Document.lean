import RangeQuery.Json.Record
import RangeQuery.Settings.Basic

/-!
Settings as a JSON document: a record of switches, each under the name of its pass.
-/

namespace RangeQuery.Settings

/-- The fields of the settings, in order. -/
def fieldNames : List String :=
  [Pass.existenceMarkers.name, Pass.anyTests.name, Pass.aggregates.name, Pass.selfJoins.name,
    Pass.requiredness.name, Pass.deadJoins.name, "trace"]

/-- The switches, in the order of the fields. -/
def switches (s : Settings) : List Bool :=
  [s.existenceMarkers, s.anyTests, s.aggregates, s.selfJoins, s.requiredness, s.deadJoins, s.trace]

/-- The fields with their switches. -/
def fields (s : Settings) : List (String × Bool) := fieldNames.zip s.switches

/-- The settings with these switches, in the order of the fields. -/
def ofSwitches? : List Bool → Option Settings
  | [existenceMarkers, anyTests, aggregates, selfJoins, requiredness, deadJoins, trace] =>
    some { existenceMarkers, anyTests, aggregates, selfJoins, requiredness, deadJoins, trace }
  | _ => none

/-- Settings; a switch that is left out stands as by default. -/
def ofJson? (json : Json) : Option Settings := do
  let values ← json.fields? fieldNames
  let switches ← (values.zip defaults.switches).mapM fun field =>
    Json.readOr field.2 Json.bool? field.1
  ofSwitches? switches

/-- The settings that a document holds. -/
def ofDocument (document : Option String) : Except DocumentError Settings :=
  Json.readDocument ofJson? document

/-- One line of a written record. -/
def fieldLine (field : String × Bool) : String :=
  "  \"" ++ field.1 ++ "\": " ++ (if field.2 then "true" else "false")

/-- The document for settings: an object with a line for each field. -/
def toDocument (s : Settings) : String :=
  "\x7b\n" ++ ",\n".intercalate (s.fields.map fieldLine) ++ "\n\x7d"

theorem ofSwitches?_switches (s : Settings) : ofSwitches? s.switches = some s := rfl

end RangeQuery.Settings
