import ViewLint.Json.Access
import ViewLint.Timing.Basic

/-!
# Timings as JSON

The durations of a file are read, and totals and averages are written.
-/

namespace ViewLint

def Json.asNumber (v : Json) : Except Fault Number :=
  match v.number? with
  | some n => .ok n
  | none => .error (.badKind (v.kindName ++ " is not a number"))

def Phases.fields (p : Phases) : List (Text × Json) :=
  [("file_read_ms", .ofNumber p.read), ("json_flatten_ms", .ofNumber p.flatten),
    ("model_build_ms", .ofNumber p.build), ("rule_execution_ms", .ofNumber p.rules)]

def FileTiming.durations (t : FileTiming) : List (Text × Json) :=
  ("total_duration_ms", .ofNumber t.total)
    :: ("rule_timings", .object (t.perRule.map fun (rule, d) => (rule, .ofNumber d)))
    :: t.phases.fields

def FileTiming.required : List Text :=
  ["file_path", "total_duration_ms", "file_read_ms", "json_flatten_ms", "model_build_ms",
    "rule_execution_ms"]

def FileTiming.ofJson (v : Json) : Except Fault FileTiming := do
  if let some name := required.find? fun name => (v.get? name).isNone then
    .error (.badKind ("missing argument: '" ++ name ++ "'"))
  if let some (name, _) := v.fields.find? fun f => !(required.concat "rule_timings").contains f.1 then
    .error (.badKind ("unexpected argument: '" ++ name ++ "'"))
  let duration (key : Text) : Except Fault Number := (v.member key).asNumber
  let perRule ← match v.get? "rule_timings" with
    | none => .ok []
    | some table => match table.fields? with
      | some fields => fields.mapM fun (rule, d) => do return (rule, ← d.asNumber)
      | none => .error (.lacks table "items")
  return { file := (v.member "file_path").display, total := ← duration "total_duration_ms"
           phases := ⟨← duration "file_read_ms", ← duration "json_flatten_ms",
             ← duration "model_build_ms", ← duration "rule_execution_ms"⟩, perRule }

def RuleSummary.toJson (r : RuleSummary) : Json :=
  .object [("total_ms", .ofNumber r.total), ("avg_ms", .ofNumber r.average),
    ("min_ms", .ofNumber r.least), ("max_ms", .ofNumber r.most), ("executions", .nat r.executions)]

def TimingSummary.toJson (s : TimingSummary) : Json :=
  .object [("total_duration_ms", .ofNumber s.total), ("files_processed", .nat s.files),
    ("avg_per_file_ms", .ofNumber s.perFile), ("totals", .object s.totals.fields),
    ("averages", .object s.averages.fields),
    ("rule_summary", .pairs (s.rules.map fun (rule, r) => (rule, r.toJson)))]

def Measurement.toJson (m : Measurement) : Json := .arr [m.operation, .float m.duration, m.context]

end ViewLint
