import ViewLint.Store.Glob
import ViewLint.Timing.Stopwatch

/-!
# Sessions

A session works in a workspace: it reads and writes files, prints, and asks the script checker. It
may stop early, with a fault or with an exit code; what it has done before stays done.
-/

namespace ViewLint

def Json.fileName (v : Json) : Except Fault Text :=
  match v with
  | .str s => .ok s
  | other =>
    .error (.badKind ("expected str, bytes or os.PathLike object, not " ++ other.kindName))

inductive CheckerReply where
  | output (text : Text)
  | failed (text : Text)
  | absent (text : Text)

structure CheckerCall where
  args : List Text
  text : Text

structure Workspace where
  store : Store
  cwd : Place
  out : Text := ""
  err : Text := ""
  pid : Nat := 1
  date : Text := "1970-01-01"
  time : Text := "00:00:00"
  /-- The clock, in seconds. It stands still: a session takes no time by its own clock. -/
  clock : Binary64 := .zero false
  tempDirectory : Text := "/tmp"
  bundledSettings : Text := "/usr/share/view-lint/.config/.ignition-pylintrc"
  replies : List CheckerReply := []
  calls : List CheckerCall := []

inductive Stop where
  | fault (f : Fault)
  | exit (code : Nat)

abbrev Session := ExceptT Stop (StateM Workspace)

namespace Session

def fail (f : Fault) : Session α := throw (.fault f)

def exit (code : Nat) : Session α := throw (.exit code)

def lift (r : Except Fault α) : Session α :=
  match r with
  | .ok a => pure a
  | .error f => fail f

def attempt (action : Session α) : Session (Except Fault α) :=
  tryCatch (do return .ok (← action)) fun
    | .fault f => pure (.error f)
    | .exit code => exit code

def runIn (w : Workspace) (action : Session α) : Except Stop α × Workspace := action.run.run w

def print (text : Text) : Session Unit := modify fun w => { w with out := w.out ++ text }

def printLine (text : Text) : Session Unit := print (text ++ "\n")

def printLines (lines : List Text) : Session Unit := lines.forM printLine

def complain (text : Text) : Session Unit := modify fun w => { w with err := w.err ++ text ++ "\n" }

/-! ## Files -/

def pathExists (name : Text) : Session Bool := do
  let w ← get
  return w.store.has w.cwd name

/-- Whether a name leads to anything; a name that is too long is refused. -/
def checkedExists (name : Text) : Session Bool := do
  let w ← get
  match w.store.locate w.cwd true name with
  | .error .tooLong => fail (.storage (.nameTooLong name))
  | _ => return w.store.has w.cwd name

def readFile (name : Text) : Session Text := do
  let w ← get
  lift (w.store.read w.cwd name)

def writePieces (name : Text) (pieces : List Text) : Session Unit := do
  let w ← get
  let (store, result) := w.store.write w.cwd name pieces
  set { w with store }
  lift result

def writeFile (name text : Text) : Session Unit := writePieces name [text]

def writeLines (name : Text) (lines : List Text) : Session Unit :=
  writePieces name (lines.map (· ++ "\n"))

def writeBack (name : Text) (lines : List Text) : Session Text := do
  writeLines name lines
  readFile name

def upToFault : List (Except Fault α) → List α × Except Fault Unit
  | [] => ([], .ok ())
  | .error f :: _ => ([], .error f)
  | .ok a :: rest =>
    let (items, result) := upToFault rest
    (a :: items, result)

def printUntil (lines : List (Except Fault Text)) : Session Unit := do
  let (lines, result) := upToFault lines
  printLines lines
  lift result

/-- Writes a file line by line. The lines before one that cannot be put together are kept. -/
def writeUntil (name : Text) (lines : List (Except Fault Text)) : Session Unit := do
  let (lines, result) := upToFault lines
  writeLines name lines
  lift result

def isDirectory (name : Text) : Session Bool := do
  let w ← get
  return w.store.isDirectory w.cwd name

def listDirectory (name : Text) : Session (List Text) := do
  let w ← get
  lift (w.store.listAt w.cwd name)

def removeFile (name : Text) : Session Unit := do
  let w ← get
  set { w with store := ← lift (w.store.remove w.cwd name) }

def removeTree (name : Text) : Session Unit := do
  let w ← get
  set { w with store := ← lift (w.store.removeTree w.cwd name) }

def makeDirectories (name : Text) : Session Unit := do
  let w ← get
  set { w with store := ← lift (w.store.makeDirectories w.cwd name) }

def makeTree (name : Text) : Session Unit := do
  let w ← get
  set { w with store := ← lift (w.store.makeTree w.cwd name) }

def resolve (name : Text) : Session Place := do
  let w ← get
  lift (w.store.resolve w.cwd name)

def removeQuietly (name : Text) : Session Unit := do
  let _ ← attempt (removeFile name)

def globIn (directory step : Text) : Session (List Text) := do
  let w ← get
  if Text.holds step "**" then
    fail (.badValue "Invalid pattern: '**' can only be an entire path component")
  return w.store.globIn w.cwd directory step

/-- The names that match a pattern. A directory that has to be listed needs a possible name. -/
def glob (pattern : Text) : Session (List Text) := do
  let w ← get
  if Wildcard.isWild pattern then lift (Store.checkName (Wildcard.listedDirectory pattern))
  return w.store.glob w.cwd pattern

/-! ## Time -/

def now : Session Binary64 := do return (← get).clock

def stamp : Session Text := do
  let w ← get
  return w.date ++ " " ++ w.time

def since (start : Binary64) : Session Binary64 := do
  lift ((elapsed (.float start) (.float (← now))).mapError .overflow)

def timed (action : Session α) : Session (α × Binary64) := do
  let start ← now
  let a ← action
  return (a, ← since start)

/-! ## The script checker -/

/-- Asks the script checker. When there are no more replies, it prints nothing. -/
def askChecker (call : CheckerCall) : Session Text := do
  let w ← get
  let (reply, rest) := match w.replies with
    | reply :: rest => (reply, rest)
    | [] => (.output "", [])
  set { w with replies := rest, calls := w.calls ++ [call] }
  match reply with
  | .output text => return text
  | .failed text => fail (.storage (.reported text))
  | .absent text => fail (.notInstalled text)

end Session

end ViewLint
