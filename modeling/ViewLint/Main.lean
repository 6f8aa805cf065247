import Std.Time
import ViewLint.Run.Basic
import ViewLint.Store.Snapshot

/-!
# The command line

The program lints the files that its command line names. Patterns are matched against the names on
standard input, one a line, so that the result of a search can be handed over. The files are read
before the run and written after it; the run itself only works in its store.
-/

namespace ViewLint.Main

def program : Text := "ignition-lint"

def usual : List Text := ["rule_config.json", ".whitelist.txt", ".config/.ignition-pylintrc"]

def mentioned (args : List Text) : List Text :=
  args.flatMap fun word => word :: ((Text.cut? "=" word).map (·.2)).toList

def wantsMatches (args : List Text) : Bool :=
  match Options.read args with
  | .ok o => o.filenames.isEmpty
  | .error _ => false

/-- A text as it is handed over to the system. Half a code point has no place there and is replaced. -/
def spelled (text : Text) : String :=
  String.ofList (text.map fun
    | .char c => c
    | .half _ => '\uFFFD')

def processNumber : IO Nat := do
  try
    let status ← IO.FS.readFile "/proc/self/stat"
    return (String.ofList (status.toList.takeWhile (· != ' '))).toNat?.getD 1
  catch _ => return 1

def load (cwd : Place) (s : Store) (name : Text) : IO Store := do
  try
    let text ← IO.FS.readFile (spelled name)
    return match s.resolve cwd name with
      | .ok place => s.plant place (.file text (.zero false))
      | .error _ => s
  catch _ => return s

def namesFromInput : IO (List Text) := do
  let lines ← (← IO.getStdin).lines
  return (lines.toList.map fun line => Text.strip (.ofString line)).filter (!·.isEmpty)

def workspace (args : List Text) : IO Workspace := do
  let cwd := FileName.steps ((← IO.getEnv "PWD").getD "/")
  let names ← if wantsMatches args then namesFromInput else pure []
  let start : Store := Store.plant {} cwd (.directory (.zero false))
  let store ← (usual ++ mentioned args ++ names).foldlM (load cwd) start
  let now ← Std.Time.PlainDateTime.now
  return { store, cwd, pid := ← processNumber
           date := now.date.format "uuuu-MM-dd", time := now.time.format "HH:mm:ss"
           replies := List.replicate (args.length + names.length) (.absent "No module named 'pylint'") }

def save (before after : Store) : IO Unit := do
  let c := before.changes after []
  for (name, text) in c.written do
    IO.FS.createDirAll (spelled ("/" ++ FileName.parent name))
    IO.FS.writeFile (spelled ("/" ++ name)) (spelled text)
  for name in c.removed do
    IO.FS.removeFile (spelled ("/" ++ name))

def ending : Except Stop Unit → UInt32 × Text
  | .ok () => (0, "")
  | .error (.exit code) => (UInt32.ofNat code, "")
  | .error (.fault f) => (1, f.message ++ "\n")

end ViewLint.Main

def main (args : List String) : IO UInt32 := do
  let args := args.map ViewLint.Text.ofString
  let before ← ViewLint.Main.workspace args
  let (result, after) :=
    ViewLint.Session.runIn before (ViewLint.Run.command ViewLint.Main.program args)
  ViewLint.Main.save before.store after.store
  let (code, complaint) := ViewLint.Main.ending result
  (← IO.getStdout).putStr (ViewLint.Main.spelled after.out)
  (← IO.getStderr).putStr (ViewLint.Main.spelled (after.err ++ complaint))
  return code
