import ViewLint.Fix.Basic
import ViewLint.Json.Access
import ViewLint.View.Escapes

/-!
# Fixes as JSON

Changes and fixes are read and written, and so is what became of them.
-/

namespace ViewLint

def Operation.toJson (op : Operation) : Json :=
  let none : Json := .str ""
  let (name, old, new, oldText, newText) : Text × Json × Json × Json × Json := match op.change with
    | .set a b => ("set_value", a, b, none, none)
    | .replace a b => ("string_replace", .null, .null, a, b)
  .object [("operation", .str name), ("json_path", .arr op.path), ("path_text", .str op.path.format),
    ("old_value", old), ("new_value", new), ("old_substring", oldText),
    ("new_substring", newText), ("description", .str op.description)]

def Operation.ofJson (v : Json) : Except Fault Operation := do
  let name := v.member "operation"
  let part (key : Text) : Json := (v.get? key).getD (.str "")
  let change : Change ←
    if name.equals (.str "set_value") then .ok (.set (v.member "old_value") (v.member "new_value"))
    else if name.equals (.str "string_replace") then
      .ok (.replace (part "old_substring") (part "new_substring"))
    else .error (.badValue (name.quoted ++ " is not a valid FixOperationType"))
  return ⟨← (v.member "json_path").parts, change, (v.member "description").display⟩

namespace Fix

def toJson (f : Fix) : Json :=
  .object [("rule_name", f.rule), ("violation_message", .str f.violation),
    ("description", .str f.description), ("operations", .arr (f.operations.map Operation.toJson)),
    ("is_safe", .bool f.safe), ("safety_notes", f.notes)]

def ofJson (v : Json) : Except Fault Fix := do
  return { rule := v.member "rule_name", violation := (v.member "violation_message").display
           description := (v.member "description").display
           operations := ← (v.list "operations").mapM Operation.ofJson
           safe := v.flag "is_safe" true, notes := v.member "safety_notes" }

/-- The fixes that a JSON object asks for. A text as the filter stands for every name in it. -/
def Selection.ofJson (v : Json) (fixes : List Fix) : Except Fault Selection := do
  let filter := v.member "rules"
  let rules ← match filter with
    | .str text => do
      let held ← fixes.filterM fun fix => match fix.rule with
        | .str rule => .ok (Text.holds text rule)
        | other => if text.isEmpty then .ok false else .error (.badKind
            ("'in <string>' requires string as left operand, not " ++ other.kindName))
      pure (if text.isEmpty then [] else filter :: held.map (·.rule))
    | _ => if filter.isTrue && !fixes.isEmpty then filter.parts else pure []
  return { safeOnly := v.flag "safe_only" true, rules }

def Conflict.toJson (c : Conflict) : Json :=
  .object [("a", .nat c.first), ("b", .nat c.second), ("path", .arr c.path),
    ("description", .str c.description)]

def Outcome.toJson (o : Outcome) (doc : Json) : Json :=
  .object [("applied", .arr (o.applied.map .nat)), ("applied_count", .nat o.applied.length),
    ("skipped", .arr (o.skipped.map fun (i, reason) => .arr [.nat i, .str reason])),
    ("skipped_count", .nat o.skipped.length), ("conflicts", .arr (o.conflicts.map Conflict.toJson)),
    ("data", .str (View.format doc))]

end Fix

end ViewLint
