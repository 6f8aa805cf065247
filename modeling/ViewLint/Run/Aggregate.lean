import ViewLint.Report.Results
import ViewLint.Text.Pad

/-!
# Batches taken together

When one process is called several times, each call leaves its own results file. Their counts are
added up in a summary file.
-/

namespace ViewLint

structure BatchCounts where
  files : Nat := 0
  warnings : Nat := 0
  errors : Nat := 0
  issues : Nat := 0
  clean : Nat := 0
  deriving DecidableEq

namespace BatchCounts

/-! ## Reading -/

def digitsAfter? (label s : Text) : Option Text := do
  let rest ← Text.after? label s
  let digits := (Text.stripStart rest).takeWhile isDigit
  if (rest.head?.map isBlank).getD false && !digits.isEmpty then some digits else none

def number? (label text : Text) : Except Fault (Option Nat) :=
  match Text.first? (digitsAfter? label) text with
  | none => .ok none
  | some digits =>
    if Json.digitLimit < digits.length then .error (.badValue (Json.digitLimitMessage digits.length))
    else .ok (some (Text.digitsValue digits))

def number (label text : Text) : Except Fault Nat := do return (← number? label text).getD 0

def read (text : Text) : Except Fault (Option BatchCounts) := do
  match ← number? "Files processed:" text with
  | none => return none
  | some files =>
    return some { files, warnings := ← number "Total warnings:" text
                  errors := ← number "Total errors:" text
                  issues := ← number "Files with issues:" text, clean := ← number "Clean files:" text }

/-! ## Adding up -/

def add (a b : BatchCounts) : BatchCounts :=
  ⟨a.files + b.files, a.warnings + b.warnings, a.errors + b.errors, a.issues + b.issues,
    a.clean + b.clean⟩

def sum (batches : List BatchCounts) : BatchCounts := batches.foldl add {}

def line (name : Text) (c : BatchCounts) : Text :=
  let column (width n : Nat) : Text := Text.padStart width (natText n)
  Text.padEnd 45 name ++ " Files: " ++ column 3 c.files ++ "  Warnings: " ++ column 4 c.warnings
    ++ "  Errors: " ++ column 4 c.errors ++ "  Issues: " ++ column 3 c.issues ++ "  Clean: "
    ++ column 3 c.clean

/-- The lines of the summary file about all batches. A count with more digits than can be written has
none. -/
def totalLines (total : BatchCounts) : List (Except Fault Text) :=
  let plain (label : Text) (n : Nat) : Except Fault Text := do return label ++ (← writtenInt n)
  let grouped (label : Text) (n : Nat) : Except Fault Text := do
    let _ ← writtenInt n
    return label ++ Text.grouped n
  [plain "Files processed:      " total.files, grouped "Total warnings:       " total.warnings,
    grouped "Total errors:         " total.errors, plain "Files with issues:    " total.issues,
    plain "Clean files:          " total.clean]

def summaryLines (stamp : Text) (batches : List (Text × BatchCounts)) : List (Except Fault Text) :=
  let rule (c : Text) : Text := Text.repeated 80 c
  let heading : List Text :=
    [rule "=", "AGGREGATED IGNITION-LINT RESULTS SUMMARY", rule "=", "Generated: " ++ stamp,
      "Total batches: " ++ natText batches.length, "", "TOTAL SUMMARY ACROSS ALL BATCHES", rule "-"]
  let breakdown : List Text := List.flatten
    [["", "BREAKDOWN BY BATCH", rule "-"],
      batches.map fun (name, c) => line name c,
      ["", rule "=", "END OF AGGREGATED SUMMARY", rule "="]]
  List.flatten [heading.map .ok, totalLines (sum (batches.map (·.2))), breakdown.map .ok]

end BatchCounts

namespace Aggregate

def baseName (path : Text) : Text := Text.before "_pid" (FileName.stem path)

def isBatch (path : Text) : Bool :=
  let name := FileName.last path
  Text.holds name "_pid" && Text.holds name "_batch"

def summaryName (path : Text) : Text :=
  let base := if Text.holds (FileName.last path) "_pid" then baseName path else FileName.stem path
  FileName.child (FileName.parent path) (base ++ "_AGGREGATED_SUMMARY.txt")

def earlier (path : Text) : Session (Option BatchCounts) := do
  if !(← Session.checkedExists (summaryName path)) then return none
  match ← Session.attempt (Session.readFile (summaryName path)) with
  | .ok text => Session.lift (BatchCounts.read text)
  | .error (.storage _) => return none
  | .error f => Session.fail f

/-- The results files that belong together, sorted: the one with the base name and the batches. -/
def related (path : Text) : Session (List Text) := do
  let directory := FileName.parent path
  let base := FileName.child directory (baseName path ++ ".txt")
  let bases := if ← Session.checkedExists base then [base] else []
  let batches ← Session.globIn directory (baseName path ++ "_pid*.txt")
  let kept := batches.filter fun name => !Text.holds (FileName.last name) "AGGREGATED_SUMMARY"
  return (bases ++ kept).mergeSort fun a b => Text.le (FileName.last a) (FileName.last b)

def countsOf (path : Text) : Session (Option (Text × BatchCounts)) := do
  match ← Session.attempt (Session.readFile path) with
  | .ok text => return (← Session.lift (BatchCounts.read text)).map (FileName.last path, ·)
  | .error (.storage e) =>
    Session.printLine ("⚠️  Warning: Could not read " ++ FileName.last path ++ ": " ++ e.message)
    return none
  | .error f => Session.fail f

def writeSummary (path : Text) (batches : List (Text × BatchCounts)) :
    Session (Option BatchCounts) := do
  let name := summaryName path
  let lines := BatchCounts.summaryLines (← Session.stamp) batches
  match ← Session.attempt (Session.writeUntil name lines) with
  | .ok () =>
    Session.printLine ("\n📊 Aggregated summary written to: " ++ name)
    return some (BatchCounts.sum (batches.map (·.2)))
  | .error (.storage e) =>
    Session.printLine ("⚠️  Warning: Could not write aggregated summary: " ++ e.message)
    return none
  | .error f => Session.fail f

/-- The counts of all batches that belong to a results file. For a file that is no batch they are
those of an earlier summary; a single file needs none. -/
def run (path : Text) : Session (Option BatchCounts) := do
  if !isBatch path then return ← earlier path
  let files ← related path
  if files.length ≤ 1 then return none
  let batches ← files.filterMapM countsOf
  if batches.isEmpty then return none
  writeSummary path batches

end Aggregate

end ViewLint
