import ViewLint.Report.Console
import ViewLint.Timing.Basic
import ViewLint.View.Escapes

/-!
# One file of a run

A view file is read and linted, and mended if that is asked for.
-/

namespace ViewLint

namespace ViewFile

def giveUp (complaint : Text) : Session α := do
  Session.complain ("ERROR: " ++ complaint)
  Session.exit 1

/-- The document in a file, whose objects keep their order. A file that is missing or that holds no
document ends the run. -/
def read (path : Text) : Session Json := do
  let full := (← Session.resolve path).name
  match ← Session.attempt (Session.readFile full) with
  | .ok text =>
    match Json.parse text with
    | .ok doc => return doc.ordered
    | .error e =>
      match e.cause with
      | .tooManyDigits _ => Session.fail (.badJson e)
      | _ => giveUp ("Invalid JSON in " ++ full ++ ": " ++ e.message)
  | .error (.storage (.notFound _)) =>
    giveUp ("File " ++ full ++ " not found. Confirm the file exists and is accessible.")
  | .error f => Session.fail f

def write (path : Text) (doc : Json) : Session Unit := do
  let full := (← Session.resolve path).name
  let written ← Session.attempt (do
    Session.makeDirectories (FileName.parent full)
    Session.writeFile full (View.format doc))
  match written with
  | .ok () => return ()
  | .error (.storage e) => giveUp ("Failed to write " ++ full ++ ": " ++ e.message)
  | .error f => Session.fail f

def flatten (path : Text) : Session Flat := do
  let flat ← Session.attempt (do Session.lift (View.flatten (← read path)))
  match flat with
  | .ok flat => return flat
  | .error (.storage e) =>
    Session.printLine ("Error reading or parsing file " ++ path ++ ": " ++ e.message)
    return []
  | .error f => Session.fail f

end ViewFile

namespace FileRun

structure Options where
  verbose : Bool := false
  statsOnly : Bool := false
  analyzeRules : Bool := false
  /-- The kinds of node to show, if any are; an empty list stands for all. -/
  debugNodes : Json := .null
  fix : Bool := false
  fixUnsafe : Bool := false
  fixDryRun : Bool := false
  fixRules : Json := .null
  timing : Bool := false

def Options.selection (o : Options) : Except Fault Fix.Selection := do
  let rules ← match o.fixRules with
    | .str rules =>
      pure (if rules.isEmpty then [] else (Text.splitOn "," rules).map fun r => .str (Text.strip r))
    | other => if other.isTrue then .error (.lacks other "split") else pure []
  return { safeOnly := !o.fixUnsafe, rules }

structure Done where
  engine : Engine
  warnings : Nat := 0
  errors : Nat := 0
  timing : Option FileTiming := none
  results : Option LintResults := none

def inform (o : Options) (file : Text) (flat : Flat) (stats : Engine.Statistics) (e : Engine) :
    Session Engine := do
  if o.verbose || o.statsOnly then Session.printLines (Console.statistics file stats)
  let e ← do
    if o.analyzeRules && !o.statsOnly then
      let e ← Session.lift (e.load flat)
      Session.printLines (Console.analysis (← Session.lift e.analysis))
      pure e
    else pure e
  if o.debugNodes.equals .null then return e
  let e ← Session.lift (e.load flat)
  let (remarks, nodes) := e.debugNodes o.debugNodes
  Session.printLines remarks
  let nodes ← Session.lift nodes
  let kinds ← Session.lift (if o.debugNodes.isTrue then o.debugNodes.parts else .ok [])
  Session.printLines (Console.nodes (← Session.lift (Json.textsFrom 0 kinds)) nodes)
  return e

def mend (o : Options) (file : Text) (doc : Json) (fixes : List Fix) : Session Unit := do
  let selection ← Session.lift o.selection
  if o.fixDryRun then Session.printLines (Console.fixPreview selection file fixes)
  else
    let (doc, outcome) ← Session.lift (Fix.applyAll selection fixes doc)
    Session.printLines (Console.fixesApplied file fixes outcome)
    if !outcome.applied.isEmpty then
      ViewFile.write file doc
      Session.printLine ("  File updated: " ++ file)
    Session.printLines (Console.fixesSkipped fixes outcome)

def lint (o : Options) (file : Text) (doc : Json) (e : Engine) :
    Session (Engine × LintResults × Binary64) := do
  let fixing := o.fix || o.fixDryRun
  let locator ← Session.lift (if fixing then (Locator.ofDocument doc).map some else .ok none)
  let ((e, results), duration) ← Session.timed (e.process (.str file) locator o.timing)
  Session.printLines (Console.results results)
  if LintResults.count results.errors == 0 && LintResults.count results.warnings == 0 then
    Session.printLine "✅ No issues found"
  if fixing && !results.fixes.isEmpty then mend o file doc results.fixes
  return (e, results, duration)

/-- The durations of a file. Rules take no time by the clock of a session. -/
def timingOf (o : Options) (file : Text) (total : Binary64) (phases : Phases) (r : LintResults) :
    Option FileTiming :=
  if o.timing then
    some { file, total := .float total, phases, perRule := r.timed.map (·, .float (.zero false)) }
  else none

def runOn (o : Options) (e : Engine) (file : Text) : Session Done := do
  let start ← Session.now
  let (doc, read) ← Session.timed (ViewFile.read file)
  if !doc.isTrue then
    Session.printLine "❌ Failed to read file, skipping"
    return { engine := e }
  let (flat, flatten) ← Session.timed (Session.lift (View.flatten doc))
  if flat.isEmpty then
    Session.printLine "❌ Failed to parse file, skipping"
    return { engine := e }
  let ((e, stats), build) ← Session.timed (do
    let e ← Session.lift (e.load flat)
    return (e, ← Session.lift e.statistics))
  let e ← inform o file flat stats e
  if o.statsOnly then return { engine := e }
  let (e, results, rules) ← lint o file doc e
  let total ← Session.since start
  let phases := ⟨.float read, .float flatten, .float build, .float rules⟩
  return { engine := e, warnings := LintResults.count results.warnings
           errors := LintResults.count results.errors
           timing := timingOf o file total phases results
           results := some results }

/-- A file linted and mended as asked for. One that does not exist is skipped. -/
def run (o : Options) (e : Engine) (file : Text) : Session Done := do
  if !(← Session.checkedExists file) then
    Session.printLine ("⚠️  File " ++ file ++ " does not exist, skipping")
    return { engine := e }
  Session.printLine ("\n📄 Evaluating file:\n    " ++ file)
  runOn o e file

end FileRun

end ViewLint
