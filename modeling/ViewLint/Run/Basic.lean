import ViewLint.CommandLine.Options
import ViewLint.Run.Aggregate
import ViewLint.Run.Collect
import ViewLint.Run.Config
import ViewLint.Run.Output
import ViewLint.Run.Whitelist

/-!
# A run of the linter

A run makes the engine, goes through the files one after another, and ends with an exit code.
-/

namespace ViewLint.Run

/-! ## Before the first file -/

def whitelist (o : Options) : Session (List Place) := do
  match o.whitelist with
  | some path =>
    if o.noWhitelist then
      if o.each.verbose then Session.printLine "ℹ️  Whitelist disabled via --no-whitelist"
      return []
    let places ← Whitelist.load path
    if o.each.verbose then
      Session.printLine (if places.isEmpty
        then "⚠️  Whitelist file specified but empty or not found: " ++ path
        else "🔒 Loaded whitelist with " ++ natText places.length ++ " files")
    return places
  | none =>
    if o.noWhitelist && o.each.verbose then
      Session.printLine "ℹ️  Whitelist disabled via --no-whitelist"
    return []

def rules (o : Options) : Session (List Rule) := do
  let config ← Config.load o.config
  if !config.isTrue then
    Session.printLine "❌ No valid configuration found"
    Session.exit 1
  Session.printLine ("🔧 Loaded configuration from " ++ o.config)
  let rules ← Rule.createAll config
  if rules.isEmpty then
    Session.printLine "❌ No valid rules configured"
    Session.exit 1
  return rules

def prepare (o : Options) : Session Engine := do
  let e ← do
    if o.each.statsOnly then Engine.create [] (.optional o.debugOutput)
    else
      let rules ← rules o
      let e ← Engine.create rules (.optional o.debugOutput)
      if o.each.verbose then
        Session.printLine ("✅ Loaded " ++ natText rules.length ++ " rules: "
          ++ (Json.arr (rules.map fun r => .str r.name)).quoted)
      pure e
  match o.debugOutput with
  | some directory => Session.printLine ("🔍 Debug output will be saved to: " ++ directory)
  | none => pure ()
  return e

/-! ## Files -/

structure Progress where
  engine : Engine
  totals : Totals := {}
  timing : RunTiming := {}
  results : List FileResult := []

def addFile (t : Totals) (warnings errors : Int) : Totals where
  processed := t.processed + 1
  warnings := t.warnings + warnings
  errors := t.errors + errors
  withIssues := if 0 < warnings || 0 < errors then t.withIssues + 1 else t.withIssues

def file (o : FileRun.Options) (p : Progress) (name : Text) : Session Progress := do
  let d ← FileRun.run o p.engine name
  return { engine := d.engine, totals := addFile p.totals d.warnings d.errors
           timing := d.timing.elim p.timing p.timing.add
           results := p.results ++ [⟨name, d.warnings, d.errors, d.results⟩] }

def files (o : FileRun.Options) (p : Progress) (names : List Text) : Session Progress :=
  names.foldlM (file o) p

/-! ## After the last file -/

def addFinish (t : Totals) (r : LintResults) : Totals :=
  if r.warnings.isEmpty && r.errors.isEmpty then t
  else { t with warnings := t.warnings + LintResults.count r.warnings
                errors := t.errors + LintResults.count r.errors
                withIssues := max t.withIssues 1 }

def finish (o : FileRun.Options) (fileCount : Nat) (p : Progress) :
    Session (Progress × Option LintResults) := do
  if o.statsOnly then return (p, none)
  let (engine, r) ← p.engine.finalize o.timing
  Session.printLines (Console.finish fileCount r)
  return ({ p with engine, totals := addFinish p.totals r }, some r)

def writeTiming (path : Text) (t : RunTiming) : Session Unit := do
  let name ← Output.unique (FileName.tidy path)
  Session.makeDirectories (FileName.parent name)
  match t.report with
  | .ok lines => Session.writeLines name lines
  | .error f =>
    Session.writeLines name (TimingReport.title t)
    Session.fail f
  Session.printLine ("\n📊 Timing report written to: " ++ name)

/-- Writes the results file and gives the totals to be shown, which may be those of several batches. -/
def writeResults (path : Text) (r : RunResults) : Session Totals := do
  let name ← Output.unique (FileName.tidy path)
  Session.makeDirectories (FileName.parent name)
  Session.writeLines name r.lines
  Session.printLine ("\n📝 Results written to: " ++ name)
  match ← Aggregate.run name with
  | some c => return ⟨c.files, c.warnings, c.errors, c.issues⟩
  | none => return r.totals

def conclude (o : Options) (t : Totals) : Session Unit := do
  Session.printLines (Console.summary t o.each.statsOnly o.ignoreWarnings)
  Session.exit (Console.exitCode t o.each.statsOnly o.ignoreWarnings)

def report (o : Options) (p : Progress) (last : Option LintResults) (whitelisted : List Text) :
    Session Totals := do
  match o.timingOutput with
  | some path =>
    writeTiming path (← Session.lift ((p.timing.stop (.float (← Session.now))).mapError .overflow))
  | none => pure ()
  match o.resultsOutput with
  | some path =>
    if o.each.statsOnly then return p.totals
    writeResults path { files := p.results, totals := p.totals, finish := last, whitelisted }
  | none => return p.totals

/-! ## The whole run -/

def clean (o : Options) : Session Unit := do
  (o.resultsOutput.toList ++ o.timingOutput.toList).forM fun path =>
    Output.cleanBatches (FileName.tidy path)
  Output.cleanCopies

def startTiming (o : Options) : Session RunTiming := do
  match o.timingOutput with
  | none => return {}
  | some path =>
    Session.printLine ("🔍 Performance profiling enabled (output: " ++ path ++ ")")
    return ({} : RunTiming).start (some (.float (← Session.now))) (← Session.stamp)

def lint (o : Options) : Session Unit := do
  clean o
  let whitelist ← whitelist o
  let engine ← prepare o
  let c ← Collect.run whitelist o.filenames o.files o.each.verbose
  if c.chosen.isEmpty then
    Session.printLine "❌ No files specified or found"
    Session.exit 0
  if o.each.verbose then
    Session.printLine ("📁 Processing " ++ natText c.chosen.length ++ " files")
  let timing ← startTiming o
  let p ← files o.each { engine, timing } c.chosen
  let (p, last) ← finish o.each c.chosen.length p
  conclude o (← report o p last c.whitelisted)

def withOptions (o : Options) : Session Unit := do
  if o.generateWhitelist.isEmpty then lint o
  else
    Whitelist.generate o.generateWhitelist o.whitelistOutput o.append o.dryRun
    Session.exit 0

def version : Text := "0.4.1"

def endEarly (program : Text) (opts : List CommandLine.Opt) : CommandLine.Ending → Session Unit
  | .refused complaint => do
    Session.complain (program ++ ": error: " ++ complaint)
    Session.exit 2
  | .asked name => do
    if name == "--version" then Session.printLine (program ++ " " ++ version)
    else
      Session.printLine ("usage: " ++ program ++ " [options] [file ...]")
      Session.printLines (opts.map fun o => "  " ++ Text.join ", " o.names)
    Session.exit 0

def command (program : Text) (args : List Text) : Session Unit := do
  match Options.read args with
  | .ok o => withOptions o
  | .error ending => endEarly program Options.known ending

end ViewLint.Run
