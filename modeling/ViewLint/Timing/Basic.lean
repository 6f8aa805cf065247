import ViewLint.Fault
import ViewLint.Text.Pad
import ViewLint.Text.Search
import ViewLint.Timing.Stopwatch

/-!
# The timing of a run

Durations that are given as integers stay integers as long as they are only added up and rounded.
-/

namespace ViewLint

structure Phases where
  read : Number := .int 0
  flatten : Number := .int 0
  build : Number := .int 0
  rules : Number := .int 0

namespace Phases

def map (f : Number → Number) (p : Phases) : Phases :=
  ⟨f p.read, f p.flatten, f p.build, f p.rules⟩

def add (p q : Phases) : Except Overflow Phases := do
  return ⟨← p.read.add q.read, ← p.flatten.add q.flatten, ← p.build.add q.build,
    ← p.rules.add q.rules⟩

def div (p : Phases) (count : Nat) : Except Overflow Phases := do
  return ⟨.float (← p.read.div count), .float (← p.flatten.div count),
    .float (← p.build.div count), .float (← p.rules.div count)⟩

end Phases

structure FileTiming where
  file : Text
  total : Number
  phases : Phases
  perRule : List (Text × Number) := []

structure RunTiming where
  files : List FileTiming := []
  started : Option Number := none
  total : Number := .float (.zero false)
  stamp : Option Text := none

def rounded (x : Number) : Number := x.round 2

def FileTiming.round (t : FileTiming) : FileTiming :=
  { t with total := rounded t.total, phases := t.phases.map rounded
           perRule := t.perRule.map fun (rule, d) => (rule, rounded d) }

def shortestDuration (d : Number) (ds : List Number) : Number :=
  ds.foldl (fun best x => if x.lt best then x else best) d

def longestDuration (d : Number) (ds : List Number) : Number :=
  ds.foldl (fun best x => if best.lt x then x else best) d

structure RuleSummary where
  total : Number
  average : Number
  least : Number
  most : Number
  executions : Nat

structure TimingSummary where
  total : Number
  files : Nat
  perFile : Number
  totals : Phases
  averages : Phases
  rules : List (Text × RuleSummary)

def RuleSummary.of (d : Number) (ds : List Number) : Except Overflow RuleSummary := do
  let sum ← Number.sum (d :: ds)
  let count := ds.length + 1
  return { total := rounded sum, average := rounded (.float (← sum.div count))
           least := rounded (shortestDuration d ds), most := rounded (longestDuration d ds)
           executions := count }

namespace RunTiming

def start (t : RunTiming) (now : Option Number) (stamp : Text) : RunTiming :=
  { t with started := now, stamp := some stamp }

def stop (t : RunTiming) (now : Number) : Except Overflow RunTiming :=
  match t.started with
  | none => .ok t
  | some start => do
    if start.isZero then return t
    return { t with total := .float (← elapsed start now) }

def add (t : RunTiming) (file : FileTiming) : RunTiming := { t with files := t.files ++ [file] }

def byRule (t : RunTiming) : List (Text × List Number) :=
  (t.files.flatMap (·.perRule)).foldl
    (fun table entry => Fields.modify table entry.1 [] (· ++ [entry.2])) []

def ruleSummaries (t : RunTiming) : Except Overflow (List (Text × RuleSummary)) :=
  t.byRule.filterMapM fun (rule, ds) => match ds with
    | [] => .ok none
    | d :: ds => do return some (rule, ← RuleSummary.of d ds)

def phases (t : RunTiming) : Except Overflow Phases := t.files.foldlM (fun p f => p.add f.phases) {}

def summary? (t : RunTiming) : Except Overflow (Option TimingSummary) := do
  if t.files.isEmpty then return none
  let count := t.files.length
  let totals ← t.phases
  let averages ← totals.div count
  let perFile ← t.total.div count
  let rules ← t.ruleSummaries
  return some { total := rounded t.total, files := count, perFile := rounded (.float perFile)
                totals := totals.map rounded, averages := averages.map rounded, rules }

end RunTiming

/-! ## The report -/

namespace TimingReport

def rule (c : Text) : Text := Text.repeated 80 c

def shown (d : Number) : Except Overflow Text := d.fixed 2

def row (heading : Text) (d : Number) : Except Overflow Text := do
  return heading ++ Text.padStart 10 (← shown d) ++ " ms"

def phaseLines (p : Phases) : Except Overflow (List Text) := do
  return [← row "File Reading:    " p.read, ← row "JSON Flattening: " p.flatten,
    ← row "Model Building:  " p.build, ← row "Rule Execution:  " p.rules, ""]

def title (t : RunTiming) : List Text :=
  let stamp : List Text := match t.stamp with
    | some stamp => if stamp.isEmpty then [] else ["Report Generated: " ++ stamp]
    | none => []
  List.flatten [[rule "=", "IGNITION-LINT PERFORMANCE TIMING REPORT", rule "="], stamp,
    ["", "OVERALL SUMMARY", rule "-"]]

def totals (s : TimingSummary) : Except Overflow (List Text) := do
  return ["Total Duration: " ++ (← shown s.total) ++ " ms ("
      ++ (← shown (.float (← s.total.div 1000))) ++ "s)",
    "Files Processed: " ++ natText s.files,
    "Average Per File: " ++ (← shown s.perFile) ++ " ms", ""]

def columns (a b c d : Text) : Text :=
  Text.padEnd 40 a ++ " " ++ Text.padStart 12 b ++ " " ++ Text.padStart 12 c ++ " "
    ++ Text.padStart 12 d

def ruleLines (rules : List (Text × RuleSummary)) : Except Overflow (List Text) := do
  if rules.isEmpty then return []
  let slowestFirst := rules.mergeSort fun a b => !(a.2.total.lt b.2.total)
  let lines ← slowestFirst.mapM fun (name, r) => do
    return columns name (← shown r.total) (← shown r.average) (natText r.executions)
  return "RULE EXECUTION SUMMARY" :: rule "-"
    :: columns "Rule Name" "Total (ms)" "Avg (ms)" "Executions" :: rule "-" :: lines.concat ""

def fileLines (f : FileTiming) : Except Overflow (List Text) := do
  let phases := ["File: " ++ f.file, "Total: " ++ (← shown f.total) ++ " ms",
    ← row "  - File Read:      " f.phases.read, ← row "  - JSON Flatten:   " f.phases.flatten,
    ← row "  - Model Build:    " f.phases.build, ← row "  - Rule Execution: " f.phases.rules]
  if f.perRule.isEmpty then return phases.concat ""
  let slowestFirst := f.perRule.mergeSort fun a b => !(a.2.lt b.2)
  let rules : List Text ← slowestFirst.mapM fun (name, d) => do
    return "    - " ++ name ++ ": " ++ (← shown d) ++ " ms"
  return List.flatten [phases, "  Rule breakdown:" :: rules, [""]]

def body (files : List FileTiming) (s : TimingSummary) : Except Overflow (List Text) := do
  return List.flatten [← totals s, ["PHASE BREAKDOWN (Totals)", rule "-"], ← phaseLines s.totals,
    ["PHASE BREAKDOWN (Averages per file)", rule "-"], ← phaseLines s.averages, ← ruleLines s.rules,
    ["PER-FILE TIMING DETAILS", rule "=", ""], (← files.mapM fileLines).flatten,
    [rule "=", "END OF REPORT", rule "="]]

end TimingReport

def RunTiming.report (t : RunTiming) : Except Fault (List Text) :=
  match t.summary? with
  | .error o => .error (.overflow o)
  | .ok none => .error (.missingKey (.str "total_duration_ms"))
  | .ok (some s) =>
    ((TimingReport.body t.files s).map (TimingReport.title t ++ ·)).mapError .overflow

end ViewLint
