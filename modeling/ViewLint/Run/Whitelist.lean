import ViewLint.Session
import ViewLint.Text.Blank

/-!
# Whitelists

A whitelist names files that are not to be linted, one on a line. Blank lines and lines that start
with a number sign do not count.
-/

namespace ViewLint.Whitelist

def entries (text : Text) : List Text :=
  ((Text.splitOn "\n" text).map Text.strip).filter fun line =>
    !line.isEmpty && !Text.startsWith line "#"

/-! ## Loading -/

def placeOf (line : Text) : Session (Option Place) := do
  match ← Session.attempt (Session.resolve line) with
  | .ok place => return some place
  | .error (.linkLoop path) => Session.fail (.linkLoop path)
  | .error f =>
    Session.printLine ("⚠️  Warning: Invalid path in whitelist '" ++ line ++ "': " ++ f.message)
    return none

def textOf (path : Text) : Session Text := do
  if ← Session.checkedExists (FileName.tidy path) then Session.readFile (FileName.tidy path) else return ""

def load (path : Text) : Session (List Place) := do
  match ← Session.attempt (textOf path) with
  | .ok text => return Fields.keys (Fields.ofPairs ((← (entries text).filterMapM placeOf).map (·, ())))
  | .error (.storage e) =>
    Session.printLine ("⚠️  Warning: Could not read whitelist file " ++ path ++ ": " ++ e.message)
    return []
  | .error f => Session.fail f

/-! ## Generating -/

/-- The name under which a file is recorded: relative to the working directory if it lies there. A
name that no file can have is recorded as it is. -/
def recordedName (name : Text) : Session Text := do
  match ← Session.attempt (Session.resolve name) with
  | .ok place =>
    let cwd := (← get).cwd
    return if cwd.isPrefixOf place then FileName.ofSteps "" (place.drop cwd.length) else name
  | .error (.linkLoop path) => Session.fail (.linkLoop path)
  | .error _ => return name

def matching (patterns : List Text) : Session (List Text) := do
  let found ← patterns.flatMapM Session.glob
  return Text.sort (Text.dedup (← found.mapM recordedName))

def previewLines (names : List Text) : List Text :=
  ("🔍 Would add " ++ natText names.length ++ " files to whitelist:")
    :: (names.take 20).map ("  " ++ ·)
    ++ if 20 < names.length then ["  ... and " ++ natText (names.length - 20) ++ " more files"] else []

/-- The names that an existing whitelist holds. One that cannot be read is only reported. -/
def existing (path : Text) : Session (List Text) := do
  if !(← Session.checkedExists (FileName.tidy path)) then return []
  match ← Session.attempt (Session.readFile path) with
  | .ok text => return Text.dedup (entries text)
  | .error (.storage e) =>
    Session.printLine ("⚠️  Warning: Could not read existing whitelist: " ++ e.message)
    return []
  | .error f => Session.fail f

def merged (old new : List Text) : List Text :=
  if old.isEmpty then new else Text.sort (Text.dedup (old ++ new))

def render (old new : List Text) : List Text :=
  let count : List Text :=
    if old.isEmpty then [] else ["# Existing: " ++ natText old.length ++ " files"]
  "# Ignition-lint whitelist - files to ignore during linting"
    :: "# Lines starting with # are comments"
    :: "# One file path per line (relative to repository root)"
    :: ("# Generated: " ++ natText new.length ++ " files added")
    :: count.append ("" :: merged old new)

def reportLines (path : Text) (old new : List Text) : List Text :=
  ["✓ Whitelist " ++ (if old.isEmpty then "generated" else "appended to") ++ ": " ++ path,
    "  Total files: " ++ natText (merged old new).length]
    ++ if old.isEmpty then []
      else ["  New files: " ++ natText new.length, "  Existing files: " ++ natText old.length]

/-- Writes a whitelist of the files that match patterns. It may be added to an existing one, or only
be announced. -/
def generate (patterns : List Text) (path : Text) (append dryRun : Bool) : Session Unit := do
  let new ← matching patterns
  if dryRun then return ← Session.printLines (previewLines new)
  let old ← if append then existing path else pure []
  let target := FileName.tidy path
  let written ← Session.attempt (do
    Session.makeDirectories (FileName.parent target)
    Session.writeLines target (render old new))
  match written with
  | .ok () => Session.printLines (reportLines target old new)
  | .error (.storage e) =>
    Session.printLine ("❌ Error writing whitelist file " ++ path ++ ": " ++ e.message)
    Session.exit 1
  | .error f => Session.fail f

end ViewLint.Whitelist
