import ViewLint.Run.Basic

/-!
# Debug files of test cases

A test case is a directory with a view in it. Its debug files show how the view is flattened, which
nodes it has, and which of them the rules look at.
-/

namespace ViewLint.TestCase

def casesIn (repository : Text) : Text := FileName.child repository "tests/cases"

def debugIn (repository : Text) : Text := FileName.child repository "tests/debug/cases"

def viewOf (directory : Text) : Text := FileName.child directory "view.json"

def all (repository : Text) : Session (List Text) := do
  let names ← Session.listDirectory (casesIn repository)
  (names.map (FileName.child (casesIn repository))).filterM fun directory => do
    if !(← Session.isDirectory directory) then return false
    Session.checkedExists (viewOf directory)

/-! ## Debug files -/

/-- A rule as it is without settings, unless it cannot be made; that is only reported. -/
def isUsable (name : Text) : Session Bool := do
  match Rule.create? name (.object []) with
  | none => return false
  | some create =>
    match ← Session.attempt create with
    | .ok _ => return true
    | .error f =>
      if !Rule.isCreationFault f then Session.fail f
      Session.printLine ("Warning: Could not create rule " ++ name ++ ": " ++ f.message)
      return false

def engine : Session Engine := do
  let names ← Rule.names.filterM isUsable
  let rules ← (names.filterMap fun name => Rule.create? name (.object [])).mapM id
  return { rules }

def readme (name : Text) : Text :=
  Text.join "\n" ["# Debug Golden Output Files for " ++ name,
    "Regenerate these files whenever the view.json is updated or when model builder logic changes.",
    "These files help developers diagnose issues with the model building and rule application processes.",
    "",
    "This directory contains debug information generated from `tests/cases/" ++ name ++ "/view.json`:",
    "", "## Files", "",
    "- **`flattened.json`**: The flattened path-value representation of the original JSON",
    "- **`model.json`**: The serialized object model with all nodes organized by type",
    "- **`stats.json`**: Comprehensive statistics including node counts and rule coverage",
    "", "## Generation", "", "These files were generated using:", "```bash",
    "python scripts/generate_debug_files.py " ++ name, "```",
    "", "## Usage", "", "These files help developers understand:",
    "1. How the JSON flattening process works", "2. What nodes the model builder creates",
    "3. Which rules apply to which nodes", "4. Statistics about the view structure", "", ""]

def write (e : Engine) (view target name : Text) : Session Unit := do
  let doc ← ViewFile.read view
  let e ← Session.lift (do e.load (← View.flatten doc))
  Session.makeDirectories target
  let _ ← e.writeDebug (FileName.child target)
  Session.writeFile (FileName.child target "README.md") (readme name)

def isRefusal : Fault → Bool
  | .storage _ | .badKind _ | .badValue _ | .badJson _ | .unencodable _ => true
  | _ => false

def generate (repository : Text) (e : Engine) (directory : Text) : Session Bool := do
  let name := FileName.last directory
  if !(← Session.checkedExists (viewOf directory)) then
    Session.printLine ("❌ No view.json found in " ++ name)
    return false
  match ← Session.attempt (write e (viewOf directory) (FileName.child (debugIn repository) name) name) with
  | .ok () =>
    Session.printLine ("✅ Generated debug files for " ++ name)
    return true
  | .error f =>
    if !isRefusal f then Session.fail f
    Session.printLine ("❌ Failed to generate debug files for " ++ name ++ ": " ++ f.message)
    return false

/-! ## The command -/

def options : List CommandLine.Opt :=
  [{ names := ["-h", "--help"], final := true }, { names := ["--clean"] }, { names := ["--list"] }]

def clean (repository : Text) : Session Unit := do
  if ← Session.checkedExists (debugIn repository) then
    Session.removeTree (debugIn repository)
    Session.printLine "🗑️  Removed tests/debug/cases directory"
  else Session.printLine "No tests/debug/cases directory found to remove"

def list (repository : Text) : Session Unit := do
  let cases ← all repository
  Session.printLine ("Available test cases (" ++ natText cases.length ++ "):")
  for directory in cases do
    let name := FileName.last directory
    let done ← Session.checkedExists (FileName.child (debugIn repository) name)
    Session.printLine ("  " ++ (if done then "🔍" else "  ") ++ " " ++ name)
  Session.printLine "\n🔍 = has debug files"

def select (repository : Text) (cases : List Text) : List Text → Except Text (List Text)
  | [] => .ok []
  | name :: rest => do
    let directory := FileName.tidy (FileName.join (casesIn repository) name)
    if !cases.contains directory then .error name
    else return directory :: (← select repository cases rest)

def generateAll (repository : Text) (cases : List Text) : Session Bool := do
  let total := natText cases.length
  Session.printLine ("Generating debug files for " ++ total ++ " test case(s)...")
  let e ← engine
  Session.printLine ("Created lint engine with " ++ natText e.rules.length ++ " rules")
  let done ← cases.filterM (generate repository e)
  Session.printLine ("\n📈 Summary: " ++ natText done.length ++ "/" ++ total
    ++ " test cases processed successfully")
  return done.length == cases.length

def run (repository : Text) (names : List Text) : Session Nat := do
  let cases ← all repository
  match if names.isEmpty then .ok cases else select repository cases names with
  | .error name =>
    Session.printLines (("❌ Test case '" ++ name ++ "' not found") :: "Available test cases:"
      :: cases.map fun directory => "  - " ++ FileName.last directory)
    return 1
  | .ok chosen => return if ← generateAll repository chosen then 0 else 1

def command (repository program : Text) (args : List Text) : Session Nat := do
  match CommandLine.read options args with
  | .error ending =>
    Run.endEarly program options ending
    return 0
  | .ok (settings, names) =>
    if CommandLine.isSet settings "--clean" then
      clean repository
      return 0
    if CommandLine.isSet settings "--list" then
      list repository
      return 0
    run repository names

end ViewLint.TestCase
