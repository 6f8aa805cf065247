import ViewLint.Report.Results

/-!
# What a run prints

What is printed about a file, a view, its fixes, and at the end of a run.
-/

namespace ViewLint.Console

/-! ## Messages -/

def rule (name : Text) (violations : List Text) (custom : Option Text) : List Text :=
  match Report.ruleLines name violations custom with
  | [] => []
  | lines => "" :: lines

/-- The messages of one severity. Rules that have only put something into a form of their own come
last. -/
def severity (sign kind : Text) (messages : List (Text × List Text))
    (custom : List (Text × Text)) : List Text :=
  let count := LintResults.count messages
  if count == 0 && custom.isEmpty then []
  else List.flatten
    [["", sign ++ " Found " ++ natText count ++ " " ++ kind ++ ":"],
      messages.flatMap fun (name, violations) => rule name violations (Fields.get? custom name),
      (custom.filter fun (name, _) => !Fields.has messages name).flatMap fun (name, text) =>
        rule name [] (some text)]

def results (r : LintResults) : List Text :=
  severity "❌" "errors" r.errors r.customErrors
    ++ severity "⚠️ " "warnings" r.warnings r.customWarnings

/-! ## What is known about a view -/

def statistics (file : Text) (s : Engine.Statistics) : List Text := List.flatten
  [["", "📊 Model statistics for " ++ file ++ ":", "  Total nodes: " ++ natText s.total,
      "  Node types found:"],
    s.kinds.map fun (kind, n) => "    " ++ kind ++ ": " ++ natText n,
    if s.componentTypes.isEmpty then [] else ["  Components by type:"],
    s.componentTypes.map fun (type, n) => "    " ++ type.display ++ ": " ++ natText n,
    if s.coverage.isEmpty then [] else ["  Rule coverage:"],
    s.coverage.map fun (name, c) =>
      "    " ++ name ++ ": " ++ natText c.count ++ " nodes (" ++ Text.join ", " c.targets ++ ")"]

def impact (name : Text) (m : Engine.Impact) : List Text := List.flatten
  [["  📋 " ++ name ++ ":", "    Targets: " ++ Text.join ", " m.targets,
      "    Will process: " ++ natText m.count ++ " nodes"],
    if !m.details.isEmpty then
      List.append ["    Sample nodes:"]
        (m.details.map fun (path, _, summary) => "      • " ++ path ++ ": " ++ summary)
    else if !m.samples.isEmpty then ["    Sample paths: " ++ Text.join ", " (m.samples.take 3)]
    else [],
    [""]]

def analysis (impacts : List (Text × Engine.Impact)) : List Text :=
  List.append ["", "🔍 Rule Impact Analysis:"] (impacts.flatMap fun (name, m) => impact name m)

def numbered (items : List α) : List (Nat × α) := (List.range' 1 items.length).zip items

def nodes (kinds : List Text) (found : List Json) : List Text :=
  let shown (n : Json) (key : Text) : Text := ((n.get? key).getD .null).display
  List.flatten
    [["", if kinds.isEmpty then "🔧 Debug info for all nodes:"
        else "🔧 Debug info for node types: " ++ Text.join ", " kinds],
      (numbered (found.take 10)).map fun (i, n) =>
        "  " ++ natText i ++ ". " ++ shown n "path" ++ " (" ++ shown n "node_type" ++ ")",
      if 10 < found.length then ["     ... and " ++ natText (found.length - 10) ++ " more nodes"]
      else []]

/-! ## Fixes -/

def operation (op : Operation) : List Text :=
  match op.change with
  | .set old new =>
    ["      SET " ++ op.path.format ++ ": '" ++ old.display ++ "' -> '" ++ new.display ++ "'"]
  | .replace old new =>
    ["      REPLACE in " ++ op.path.format ++ ":",
      "              '" ++ old.display ++ "' -> '" ++ new.display ++ "'"]

def safety (f : Fix) : Text :=
  if f.safe then "SAFE"
  else if f.notes.isTrue then "UNSAFE - " ++ f.notes.display
  else "UNSAFE"

def fix (number : Nat) (f : Fix) : List Text :=
  List.append
    ["", "  Fix " ++ natText number ++ " (" ++ f.rule.display ++ ") [" ++ safety f ++ "]:",
      "    " ++ f.description, "    Operations:"]
    (f.operations.flatMap operation)

def announced (sel : Fix.Selection) (fixes : List Fix) : Nat :=
  let wanted := fixes.filter (sel.wants ·.rule)
  let safe := (wanted.filter (·.safe)).length
  if sel.safeOnly && safe < wanted.length then safe else wanted.length

def fixPreview (sel : Fix.Selection) (file : Text) (fixes : List Fix) : List Text :=
  let wanted := fixes.filter (sel.wants ·.rule)
  let safe := (wanted.filter (·.safe)).length
  let total := wanted.length
  let left := fixes.length - total
  let count := natText (announced sel fixes)
  List.flatten
    [["", Report.line "=", "Proposed Fixes for " ++ file ++ ":", Report.line "="],
      ((numbered fixes).filter fun (_, f) => sel.wants f.rule).flatMap fun (n, f) => fix n f,
      ["", "Summary: " ++ natText total ++ " fixes (" ++ natText safe ++ " safe, "
        ++ natText (total - safe) ++ " unsafe)"],
      if left == 0 then [] else ["  Filtered out: " ++ natText left ++ " (not in --fix-rules)"],
      if sel.safeOnly && safe < total then
        ["  --fix would apply: " ++ count ++ " safe fix(es)",
          "  --fix --fix-unsafe would apply: " ++ natText total ++ " fix(es)"]
      else ["  Would apply: " ++ count ++ " fix(es)"]]

def describe (fixes : List Fix) (i : Nat) : Text := ((fixes[i]?).map (·.description)).getD ""

def fixesApplied (file : Text) (fixes : List Fix) (o : Fix.Outcome) : List Text :=
  if o.applied.isEmpty then []
  else List.append ["", "Applying fixes to " ++ file ++ ":"]
    (o.applied.map fun i => "  Applied: " ++ describe fixes i)

def fixesSkipped (fixes : List Fix) (o : Fix.Outcome) : List Text := List.flatten
  [o.skipped.map fun (i, reason) => "  Skipped: " ++ describe fixes i ++ " (" ++ reason ++ ")",
    ["", "Applied: " ++ natText o.applied.length ++ " fix(es) | Skipped: "
      ++ natText o.skipped.length ++ " fix(es)"]]

/-! ## After the last file -/

def lastOfOne (sign kind plural : Text) (messages : List (Text × List Text)) : List Text :=
  if LintResults.count messages == 0 then []
  else List.append
    ["", sign ++ " Found " ++ natText (LintResults.count messages) ++ " " ++ plural ++ ":"]
    (messages.flatMap fun (name, ms) =>
      if ms.isEmpty then []
      else List.append ["  📋 " ++ name ++ " (" ++ kind ++ "):"] (ms.map ("    • " ++ ·)))

def lastOfMany (sign : Text) (messages : List (Text × List Text)) : List Text :=
  messages.flatMap fun (name, ms) => ms.map fun m => sign ++ " " ++ name ++ ": " ++ m

def finish (fileCount : Nat) (r : LintResults) : List Text :=
  if r.warnings.isEmpty && r.errors.isEmpty then []
  else if fileCount == 1 then
    lastOfOne "⚠️" "warning" "warnings" r.warnings ++ lastOfOne "❌" "error" "errors" r.errors
  else List.flatten
    [["", Text.repeated 80 "=", "📦 Batch Rule Results (All Files)", Text.repeated 80 "="],
      lastOfMany "⚠️" r.warnings,
      lastOfMany "❌" r.errors]

/-! ## The end of a run -/

def summary (t : Totals) (statsOnly ignoreWarnings : Bool) : List Text :=
  List.append ["", "📈 Summary:", "  Files processed: " ++ intText t.processed]
    (if statsOnly then ["  📊 Statistics analysis complete"]
      else if t.warnings + t.errors == 0 then ["  ✅ No style inconsistencies found!"]
      else List.flatten
        [if 0 < t.warnings then ["  ⚠️  Total warnings: " ++ intText t.warnings] else [],
          if 0 < t.errors then ["  ❌ Total errors: " ++ intText t.errors] else [],
          ["  📁 Files with issues: " ++ intText t.withIssues,
            "  📁 Clean files: " ++ intText t.clean],
          if ignoreWarnings && t.errors == 0 then ["  ✅ No errors found (ignoring warnings)"]
          else []])

/-- The exit code of a run: it fails on errors, and on warnings unless they are ignored. -/
def exitCode (t : Totals) (statsOnly ignoreWarnings : Bool) : Nat :=
  if statsOnly || t.warnings + t.errors == 0 || (ignoreWarnings && t.errors == 0) then 0 else 1

end ViewLint.Console
