import ViewLint.ScriptCheck.Basic

/-!
# Output files

A run that finds its output file already there writes to a file of another name, which tells the
process and a number. Such files of earlier runs are removed at the start of a run, and so are old
copies of scripts.
-/

namespace ViewLint.Output

/-! ## Names -/

def batchName (path : Text) (pid n : Nat) : Text :=
  FileName.child (FileName.parent path)
    (FileName.stem path ++ "_pid" ++ natText pid ++ "_batch" ++ natText n ++ FileName.suffix path)

/-- The names of further files of a process, more of them than there are files. -/
def candidates (w : Workspace) (path : Text) : List Text :=
  (List.range' 1 (w.store.entries.length + 1)).map (batchName path w.pid)

def firstFree : List Text → Session (Option Text)
  | [] => return none
  | name :: rest => do if ← Session.checkedExists name then firstFree rest else return some name

def unique (path : Text) : Session Text := do
  if !(← Session.checkedExists path) then return path
  return (← firstFree (candidates (← get) path)).getD path

/-! ## Cleaning up -/

def recentAge : Binary64 := .ofInt 5

/-- Whether a file of an earlier run may go: it belongs to another process and is not recent. The age
of a link that leads nowhere is not known. -/
def isStale (pid : Nat) (name : Text) (age : Option Binary64) : Bool :=
  !Text.holds name ("_pid" ++ natText pid ++ "_")
    && match age with
      | some age => !age.lt recentAge
      | none => true

def batchPattern (path : Text) : Text := FileName.stem path ++ "*batch*.txt"

/-- The further files of earlier runs. Summaries over several files are kept. -/
def staleBatches (path : Text) : Session (List Text) := do
  let found ← Session.globIn (FileName.parent path) (batchPattern path)
  let w ← get
  return found.filter fun name =>
    !Text.holds (FileName.last name) "AGGREGATED_SUMMARY"
      && isStale w.pid (FileName.last name) (w.store.age? w.cwd name)

def staleBase (path : Text) : Session (List Text) := do
  if !(← Session.checkedExists path) then return []
  let w ← get
  return match w.store.age? w.cwd path with
    | some age => if age.lt recentAge then [] else [path]
    | none => []

def cleanBatches (path : Text) : Session Unit := do
  if !(← Session.checkedExists (FileName.parent path)) then return
  let base ← staleBase path
  let batches ← staleBatches path
  (base ++ batches).forM Session.removeQuietly

def cleanCopies : Session Unit := do
  let directory ← ScriptCheck.usualDirectory
  if !(← Session.pathExists directory) then return
  let found ← Session.globIn directory "*_pid*_*.py"
  let w ← get
  (found.filter fun name => isStale w.pid (FileName.last name) (w.store.age? w.cwd name)).forM
    Session.removeQuietly

end ViewLint.Output
