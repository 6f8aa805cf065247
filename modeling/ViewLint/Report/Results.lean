import ViewLint.Engine.Basic

/-!
# The results file

The results file tells what a run has found, file by file.
-/

namespace ViewLint

structure FileResult where
  file : Text
  warnings : Int := 0
  errors : Int := 0
  results : Option LintResults := none

structure Totals where
  processed : Int := 0
  warnings : Int := 0
  errors : Int := 0
  withIssues : Int := 0

def Totals.clean (t : Totals) : Int := t.processed - t.withIssues

structure RunResults where
  files : List FileResult
  totals : Totals
  finish : Option LintResults := none
  whitelisted : List Text := []

namespace Report

def ofLines (lines : List Text) : Text := List.flatten (lines.map (· ++ "\n"))

def line (c : Text) : Text := Text.repeated 120 c

/-- The messages of a rule and what it has put into a form of its own. Blank messages only count. A
rule without either takes no lines. -/
def ruleLines (rule : Text) (violations : List Text) (custom : Option Text) : List Text :=
  let own := custom.toList.filter (!·.isEmpty)
  if violations.isEmpty && own.isEmpty then []
  else List.flatten
    [["  " ++ rule ++ ":"],
      (violations.filter fun v => !Text.isBlankText v).map ("    • " ++ ·),
      own,
      [""]]

/-- The messages of one severity, under a heading with a count. Rules without messages are left out,
whatever they have put into a form of their own. All messages of a rule are written at once. -/
def severityLines (heading : Text) (count : Int) (messages : List (Text × List Text))
    (custom : List (Text × Text)) : List Text :=
  if messages.isEmpty then []
  else List.append ["", heading ++ " (" ++ intText count ++ " total):", ""]
    (messages.flatMap fun (rule, violations) =>
      if violations.isEmpty then []
      else [Text.join "\n" (ruleLines rule violations (Fields.get? custom rule))])

def messageLines (r : LintResults) (warnings errors : Int) : List Text :=
  severityLines "ERRORS" errors r.errors r.customErrors
    ++ severityLines "WARNINGS" warnings r.warnings r.customWarnings

end Report

def FileResult.sign (f : FileResult) : Text :=
  if 0 < f.errors then "❌" else if 0 < f.warnings then "⚠️" else "✅"

def FileResult.lines (f : FileResult) : List Text := List.flatten
  [[Report.line "-", f.sign ++ " " ++ f.file, Report.line "-"],
    match f.results with
    | some r => Report.messageLines r f.warnings f.errors
    | none => List.flatten
      [if 0 < f.warnings then ["  ⚠️  Warnings: " ++ intText f.warnings] else [],
        if 0 < f.errors then ["  ❌ Errors:   " ++ intText f.errors] else []],
    [""]]

def Report.described (rule violations custom : Json) : List (Except Fault Text) :=
  let bullets : List (Except Fault Text) :=
    match if violations.isTrue then violations.parts else .ok [] with
    | .error f => [.error f]
    | .ok items => items.filterMap fun
      | .str v => if Text.isBlankText v then none else some (.ok ("    • " ++ v))
      | other => some (.error (.lacks other "strip"))
  if !violations.isTrue && !custom.isTrue then []
  else List.flatten
    [[.ok ("  " ++ rule.display ++ ":")], bullets,
      if custom.isTrue then [.ok custom.display] else [], [.ok ""]]

namespace RunResults

def summaryLines (r : RunResults) : List Text := List.flatten
  [["SUMMARY", Report.line "-", "Files processed: " ++ intText r.totals.processed,
      "Total warnings:  " ++ intText r.totals.warnings, "Total errors:    " ++ intText r.totals.errors,
      "Files with issues: " ++ intText r.totals.withIssues,
      "Clean files:     " ++ intText r.totals.clean],
    if r.whitelisted.isEmpty then [] else ["Files whitelisted: " ++ natText r.whitelisted.length],
    [""]]

def whitelistedLines (r : RunResults) : List Text :=
  if r.whitelisted.isEmpty then []
  else List.flatten
    [["WHITELISTED FILES (SKIPPED)", Report.line "-",
        "The following " ++ natText r.whitelisted.length ++ " file(s) were skipped due to whitelist:",
        ""],
      r.whitelisted.map ("  🔒 " ++ ·),
      [""]]

def finishLines (r : RunResults) : List Text :=
  match r.finish with
  | none => []
  | some f =>
    if f.warnings.isEmpty && f.errors.isEmpty then []
    else List.flatten
      [[Report.line "=", "📦 BATCH RULE FINALIZATION RESULTS", Report.line "=", ""],
        Report.messageLines f (LintResults.count f.warnings) (LintResults.count f.errors)]

def lines (r : RunResults) : List Text := List.flatten
  [[Report.line "=", "IGNITION-LINT RESULTS", Report.line "=", ""],
    r.summaryLines,
    r.whitelistedLines,
    ["PER-FILE RESULTS", Report.line "=", ""],
    r.files.flatMap FileResult.lines,
    r.finishLines,
    [Report.line "=", "END OF RESULTS", Report.line "="]]

end RunResults

end ViewLint
