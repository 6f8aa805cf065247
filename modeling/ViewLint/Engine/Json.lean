import ViewLint.Engine.Basic
import ViewLint.Fix.Json

/-!
# What the engine knows, as JSON

Mappings whose order matters are written as pairs.
-/

namespace ViewLint

def LintResults.toJson (r : LintResults) : Json :=
  let messages (ms : List (Text × List Text)) : Json := .pairs (ms.map fun m => (m.1, .texts m.2))
  let custom (cs : List (Text × Text)) : Json := .pairs (cs.map fun c => (c.1, .str c.2))
  .object [("warnings", messages r.warnings), ("errors", messages r.errors),
    ("custom_warnings", custom r.customWarnings), ("custom_errors", custom r.customErrors),
    ("has_errors", .bool r.hasErrors), ("timed", .texts r.timed),
    ("fixes", .arr (r.fixes.map Fix.toJson))]

def LintResults.ofJson (v : Json) : Except Fault LintResults := do
  let entry : Json → Except Fault (Text × Json)
    | .arr [rule, said] => do return ((← rule.lookupKey).display, said)
    | other => .error (.badKind ("no pair: '" ++ other.kindName ++ "'"))
  let entries (key : Text) : Except Fault (List (Text × Json)) := do
    return Fields.ofPairs (← (v.list key).mapM entry)
  let message : Json → Except Fault Text
    | .str text => .ok text
    | other => .error (.lacks other "strip")
  let messages (key : Text) : Except Fault (List (Text × List Text)) := do
    (← entries key).mapM fun (rule, said) => do
      return (rule, ← (← if said.isTrue then said.parts else .ok []).mapM message)
  let custom (key : Text) : Except Fault (List (Text × Text)) := do
    return (← entries key).map fun (rule, text) => (rule, text.display)
  return { warnings := ← messages "warnings", errors := ← messages "errors"
           customWarnings := ← custom "custom_warnings", customErrors := ← custom "custom_errors" }

namespace Engine

def Statistics.listing (s : Statistics) : Json :=
  let coverage (c : Coverage) : Json :=
    .object [("target_types", .texts c.targets), ("applicable_node_count", .nat c.count)]
  .object [("total_nodes", .nat s.total),
    ("node_type_counts", .pairs (s.kinds.map fun (k, n) => (k, .nat n))),
    ("components_by_type", .arr (s.componentTypes.map fun (k, n) => .arr [k, .nat n])),
    ("rule_coverage", .pairs (s.coverage.map fun (r, c) => (r, coverage c))),
    ("model_keys", .texts s.collections)]

def Impact.toJson (m : Impact) : Json :=
  let detail (path kind summary : Text) : Json :=
    .object [("path", .str path), ("type", .str kind), ("summary", .str summary)]
  .object [("target_types", .texts m.targets), ("applicable_nodes", .nat m.count),
    ("sample_paths", .texts m.samples),
    ("node_details", .arr (m.details.map fun (path, kind, summary) => detail path kind summary))]

end Engine

end ViewLint
