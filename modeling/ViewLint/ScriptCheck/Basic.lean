import ViewLint.Rule.Basic
import ViewLint.ScriptCheck.Message
import ViewLint.Session

/-!
# Scripts checked by the script checker

The rule hands all scripts of a view, or of all views together, to the script checker and reports what
it finds. It also looks at the indentation of the scripts itself.
-/

namespace ViewLint.ScriptCheck

structure Config where
  scope : Scope
  settings : Option Text
  debug : Bool
  batch : Bool
  debugDirectory : Json
  mapping : Json

/-- A script that waits to be checked. The stamp tells apart the models that it may belong to. -/
structure Waiting where
  script : Script
  path : Text
  stamp : Nat

structure State where
  waiting : List (Text × Waiting) := []
  violations : List Violation := []
  findings : List Finding := []
  cleaned : Bool := false
  source : Json := .null

def purpose : Text := "Pylint detected issues in script"

/-! ## Settings -/

def settingsName : Text := ".config/.ignition-pylintrc"

def ancestors (p : Place) : List Place :=
  ((List.range p.length).map fun i => p.take (i + 1)).reverse

def givenSettings (given : Json) : Session (Option Text) := do
  if !given.isTrue then return none
  let name ← Session.lift given.fileName
  let cwd := (← get).cwd.name
  let full := FileName.join cwd name
  if ← Session.pathExists full then return some full
  Session.printLine ("⚠️  Warning: Specified pylintrc not found: " ++ name)
  if !FileName.isAbsolute name then
    Session.printLine ("   Tried: " ++ full)
    Session.printLine ("   Current directory: " ++ cwd)
  Session.printLine "   Falling back to standard location search..."
  return none

/-- The settings file to use: the configured one, else one in a directory above, else the one that
comes with the program. -/
def findSettings (given : Json) : Session (Option Text) := do
  match ← givenSettings given with
  | some name => return some name
  | none =>
    let w ← get
    let above := (ancestors w.cwd).map fun p => p.name ++ "/" ++ settingsName
    return (above ++ [w.bundledSettings]).find? (w.store.has w.cwd ·)

def usualMapping : Json :=
  .object [("F", .str "error"), ("E", .str "error"), ("W", .str "warning"), ("C", .str "warning"),
    ("R", .str "warning")]

def create (config : Json) : Session Config := do
  let args ← Session.lift (ruleArguments config)
  Session.lift (checkArguments "PylintScriptRule"
    ["severity", "pylintrc", "debug", "batch_mode", "debug_dir", "category_mapping"] args)
  let get := argument args
  let settings ← findSettings (get "pylintrc" .null)
  let given := get "category_mapping" .null
  let mapping := if given.isTrue then given else usualMapping
  let debug := (get "debug" (.bool false)).isTrue
  if debug then
    match settings with
    | some name => Session.printLine ("🔍 PylintScriptRule: Using pylintrc: " ++ name)
    | none => Session.printLine "🔍 PylintScriptRule: No pylintrc found, using inline configuration"
    Session.printLine ("🔍 PylintScriptRule: Category mapping: " ++ mapping.display)
  return { scope := { targets := .kinds NodeKind.scripts, severity := severityArgument args }
           settings, debug, batch := (get "batch_mode" (.bool false)).isTrue
           debugDirectory := get "debug_dir" .null, mapping }

/-! ## Copies of scripts -/

/-- The usual directory for copies of scripts: below a directory `tests` in or above the working
directory, else in the working directory. -/
def usualDirectory : Session Text := do
  let w ← get
  let below (p : Place) : Option Text :=
    if p.getLast? == some "tests" then some (p.name ++ "/debug")
    else if w.store.has w.cwd (p.name ++ "/tests") then some (p.name ++ "/tests/debug")
    else none
  return ((ancestors w.cwd).findSome? below).getD (w.cwd.name ++ "/.ignition-lint/debug")

namespace Config

def directory (c : Config) : Session Text := do
  if c.debugDirectory.isTrue then
    let name ← Session.lift c.debugDirectory.fileName
    return FileName.join (← get).cwd.name name
  usualDirectory

def clean (c : Config) (st : State) : Session State := do
  if st.cleaned then return st
  let directory ← c.directory
  if ← Session.pathExists directory then
    (← Session.glob (FileName.join directory "*.py")).forM Session.removeQuietly
    (← Session.glob (FileName.join directory "pylintrc_used.txt")).forM Session.removeQuietly
    if c.debug then Session.printLine ("🧹 Cleaned up debug directory: " ++ directory)
  return { st with cleaned := true }

def draftName : Session Text := do
  let w ← get
  return Text.replace ":" "" w.time ++ "_pid" ++ natText w.pid ++ "_draft" ++ natText w.calls.length
    ++ ".py"

def keepCopy (c : Config) (name text : Text) (hasIssues : Bool) : Session Unit := do
  let directory ← c.directory
  Session.makeTree directory
  let copy := FileName.join directory name
  Session.writeFile copy text
  if c.debug then
    Session.printLine ("🔍 Debug directory: " ++ directory)
    let note := match c.settings with
      | some settings => "Using pylintrc: " ++ settings ++ "\n"
      | none => "No pylintrc found - using inline configuration\n"
    Session.writeFile (FileName.join directory "pylintrc_used.txt") note
  if hasIssues then
    Session.printLine ("🐛 Pylint found issues. Debug file saved to: " ++ copy)
  else if c.debug then
    Session.printLine ("🔍 Debug mode: Script saved to: " ++ copy)

def keepCopyIfWanted (c : Config) (name text : Text) (hasIssues : Bool) : Session Unit := do
  if hasIssues || c.debug then
    match ← Session.attempt (c.keepCopy name text hasIssues) with
    | .ok () => pure ()
    | .error (.storage e) =>
      if c.debug then
        Session.printLine ("⚠️  Warning: Could not save debug file: " ++ e.message)
    | .error f => Session.fail f

/-! ## Checking -/

def arguments (c : Config) (name : Text) : List Text :=
  let rules : List Text := match c.settings with
    | some settings => ["--rcfile", settings]
    | none =>
      ["--disable=all", "--enable=unused-import,undefined-variable,syntax-error,invalid-name"]
  List.append rules ["--output-format=text", "--score=no", "--module-rgx=.*", name]

def shownKey (c : Config) (key : Text) : Text := if c.batch then key else pathOf key

def firstCodeLine? (text : Text) : Option Text :=
  (Text.splitOn "\n" text).find? Script.isCodeLine

def mixesTabs (line : Text) : Bool :=
  let indent := line.takeWhile isBlank
  !Text.isBlankText line && indent.contains '\t' && indent.contains ' '

def checkIndent (c : Config) (key text : Text) : List Finding :=
  let about (complaint : Text) : Finding := ⟨c.scope.severity, c.shownKey key ++ ": " ++ complaint⟩
  if Text.isBlankText text then []
  else
    (match firstCodeLine? text with
      | some line =>
        if Text.startsWith line "\t" || Text.startsWith line "    " then []
        else [about ("Script lacks proper indentation in view.json (scripts should be indented with "
          ++ "tabs or spaces for valid Python syntax)")]
      | none => [])
    ++ if (Text.splitOn "\n" text).any mixesTabs then
        [about ("Script mixes tabs and spaces for indentation. Use either tabs OR spaces "
          ++ "consistently.")]
      else []

def mapped (c : Config) (category : CodePoint) : Except Fault Json :=
  match c.mapping with
  | .obj _ fields =>
    .ok ((Fields.get? fields (.name [category])).getD (.str c.scope.severity.name))
  | other => .error (.lacks other "get")

def textOf (s : Script) : Except Fault Text :=
  match s.text with
  | .str text => .ok text
  | other => .error (.lacks other "strip")

def readOutput (c : Config) (owners : Owners) (keys : List Text) (output : Text) :
    Session (List Violation) := do
  let readings := trace owners keys output
  if c.debug then
    readings.forM fun (line, r) => match r with
      | .unreadable digits => Session.printLine ("⚠️  Warning: Error parsing pylint output line: "
          ++ line ++ "\n  Exception: " ++ Json.digitLimitMessage digits)
      | _ => pure ()
  return readings.filterMap fun (_, r) => match r with
    | .violation v => some v
    | _ => none

def issues (keys : List Text) (violations : List Violation) : List (Text × List Text) :=
  keys.map fun key => (key, (violations.filter (·.key == key)).map Violation.summary)

/-- Asks the script checker about scripts. A failure of the checker counts as an issue of every
script. -/
def ask (c : Config) (scripts : List (Text × Script)) : Session (List Violation) := do
  let (text, owners) ← Session.lift (combine scripts)
  match text.halves? with
  | some run => Session.fail (.unencodable run)
  | none => pure ()
  let keys := scripts.map (·.1)
  let name ← draftName
  let call : CheckerCall := ⟨c.arguments (FileName.join (← get).tempDirectory name), text⟩
  let failure (complaint : Text) : Session (List Violation × Bool) := do
    if c.debug then Session.printLine ("⚠️  Pylint error: " ++ complaint)
    return ([], true)
  let (violations, hasIssues) ← do
    match ← Session.attempt (Session.askChecker call) with
    | .ok output =>
      let violations ← c.readOutput owners keys output
      pure (violations, !violations.isEmpty)
    | .error (.storage e) =>
      failure ("Error with file operations during pylint: " ++ e.message)
    | .error (.notInstalled complaint) =>
      failure ("Error importing pylint modules: " ++ complaint)
    | .error f => Session.fail f
  c.keepCopyIfWanted name text hasIssues
  return violations

def countedAs (c : Config) (v : Violation) : Except Fault Severity := do
  return (Severity.ofJson? (← c.mapped v.category)).getD c.scope.severity

/-- Checks scripts. The second result tells whether they have been made into functions. Every
violation counts as a finding without text. -/
def checkScripts (c : Config) (st : State) (scripts : List (Text × Script)) :
    Session (State × Bool) := do
  let st ← c.clean st
  let texts ← Session.lift (scripts.mapM fun (key, s) => do return (key, ← textOf s))
  if texts.all fun (_, text) => Text.isBlankText text then return (st, false)
  let indent := texts.flatMap fun (key, text) => c.checkIndent key text
  let violations := st.violations ++ (← c.ask scripts)
  let counted ← Session.lift (violations.mapM c.countedAs)
  return ({ st with violations, findings := st.findings ++ indent ++ counted.map (⟨·, ""⟩) }, true)

def checkWaiting (c : Config) (st : State) : Session (State × List Waiting) := do
  let (checked, formatted) ← c.checkScripts st (st.waiting.map fun (key, w) => (key, w.script))
  return ({ checked with waiting := [] }, if formatted then st.waiting.map (·.2) else [])

def keyOf (st : State) (path : Text) : Text :=
  let file : Text := if st.source.isTrue then st.source.display else "unknown"
  file ++ "::" ++ path

def process (c : Config) (st : State) (stamp : Nat) (nodes : List Node) :
    Session (State × List Waiting) := do
  let st := if c.batch then st else { st with findings := [], violations := [], waiting := [] }
  let chosen ← Session.lift (c.scope.select nodes)
  let waiting := chosen.foldl (fun ws n =>
    match n.script? with
    | some script => Fields.insert ws (keyOf st n.path) ⟨script, n.path, stamp⟩
    | none => ws) st.waiting
  let st := { st with waiting }
  if c.batch || waiting.isEmpty then return (st, [])
  c.checkWaiting st

def finalize (c : Config) (st : State) : Session (State × List Waiting) := do
  if c.batch then
    if st.waiting.isEmpty then return (st, []) else c.checkWaiting st
  else return ({ st with findings := [], violations := [] }, [])

/-! ## Display -/

structure Group where
  category : CodePoint
  name : Text
  severity : Json
  messages : List Text

def grouped (c : Config) (violations : List Violation) : Except Fault (List Group) := do
  let present := categories.filter fun (category, _) => violations.any (·.category == category)
  present.mapM fun (category, name) => do
    let mine := violations.filter (·.category == category)
    return { category, name, severity := ← c.mapped category
             messages := mine.map fun v => c.shownKey v.key ++ ": " ++ v.summary }

def Group.lines (g : Group) : List Text :=
  ("\n    Pylint - " ++ g.name ++ " (" ++ [g.category] ++ "):")
    :: g.messages.map ("      • " ++ ·)

structure Formatted where
  warnings : Option Text
  errors : Option Text

def joined (lines : List Text) : Option Text :=
  if lines.isEmpty then none else some (Text.join "\n" lines)

def format (c : Config) (violations : List Violation) : Except Fault (Option Formatted) := do
  let groups ← c.grouped violations
  if groups.isEmpty then return none
  let isError (g : Group) : Bool := g.severity.equals (.str "error")
  return some { warnings := joined ((groups.filter (!isError ·)).flatMap Group.lines)
                errors := joined ((groups.filter isError).flatMap Group.lines) }

end Config

end ViewLint.ScriptCheck
