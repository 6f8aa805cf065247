import ViewLint.Model.Node

/-!
# One text from many scripts

All scripts are put into one text for the script checker, each as a function below a header. The text
starts with stand-ins for what scripts find around them.

A script is known by its key: the name of its file and its path, with `::` between them.
-/

namespace ViewLint.ScriptCheck

def preamble : List Text :=
  ["#pylint: disable=unused-argument,missing-docstring,redefined-outer-name,function-redefined",
    "# Stub for common globals, and to simulate the Ignition environment",
    "# Note: function-redefined is disabled because multiple scripts may define the same function names",
    "system = None  # Simulated Ignition system object",
    "self = \x7b\x7d # Simulated self object for script context",
    "event = \x7b\x7d  # Simulated event object",
    ""]

abbrev Owners := List (Int × Text)

namespace Owners

def ownerOf? (owners : Owners) (line : Int) : Option Text :=
  ((owners.filter (·.1 ≤ line)).foldl (fun best o =>
    match best with
    | none => some o
    | some b => if b.1 < o.1 then some o else some b) none).map (·.2)

def startOf? (owners : Owners) (key : Text) : Option Int :=
  ((owners.filter (·.2 == key)).map (·.1)).min?

end Owners

/-- Scripts put together: the pieces of the text, the number of the next line, and the lines of the
scripts so far. -/
structure Draft where
  pieces : List Text := preamble
  next : Nat := 1 + preamble.length
  owners : Owners := []
  file : Option Text := none
  number : Nat := 0

/-- The header of a script, and what it changes about the file and the number. -/
def Draft.header (d : Draft) (key : Text) : Text × Nat × Option Text × Nat :=
  match Text.cut? "::" key with
  | some (file, path) =>
    let number := if d.file == some file then d.number + 1 else 1
    ("# File: " ++ file ++ "\n# Script " ++ natText number ++ ": " ++ path, 2, some file, number)
  | none => ("# Script " ++ natText (d.number + 1) ++ ": " ++ key, 1, d.file, d.number + 1)

def Draft.add (d : Draft) (key function : Text) : Draft :=
  let (header, headerLines, file, number) := d.header key
  let size := Text.occurrences "\n" function + 1
  let start := d.next + headerLines
  { pieces := d.pieces ++ [header, function, ""]
    next := start + size + 1
    owners := d.owners ++ (List.range size).map fun (i : Nat) => (((start + i : Nat) : Int), key)
    file, number }

def combine (scripts : List (Text × Script)) : Except Fault (Text × Owners) := do
  let functions ← scripts.mapM fun (key, s) => do return (key, ← s.formatted)
  let draft : Draft := functions.foldl (fun d f => d.add f.1 f.2) {}
  return (Text.join "\n" draft.pieces, draft.owners)

def pathOf (key : Text) : Text := ((Text.cut? "::" key).map (·.2)).getD key

end ViewLint.ScriptCheck
