import ViewLint.Fault
import ViewLint.Text.Search

/-!
# Paths into a document

A path is a list of steps from the root of a document. In an object a step selects the field whose key
it is, which is a name in every document that was read. In an array an integer selects an item, counted
from the end if it is negative; a truth value counts as an integer.
-/

namespace ViewLint

abbrev Path := List Json

def Path.display (path : Path) : Text := (Json.arr path).quoted

/-- A path for readers: indices in brackets, names behind arrows unless they come first. -/
def Path.format (path : Path) : Text :=
  List.flatten (path.zipIdx.map fun (step, i) =>
    match step with
    | .int _ | .bool _ => "[" ++ step.display ++ "]"
    | _ => if i == 0 then step.display else " > " ++ step.display)

namespace Json

def position? (length : Nat) (n : Int) : Option Nat :=
  if 0 ≤ n then if n < length then some n.toNat else none
  else if 0 ≤ n + length then some (n + length).toNat
  else none

def itemPosition (length : Nat) (step : Json) : Except Fault Nat :=
  match step.int? with
  | some n => match position? length n with
    | some i => .ok i
    | none => .error .outOfRange
  | none => .error (.badKind ("list indices must be integers or slices, not " ++ step.kindName))

def noParts (verb : Text) (v : Json) (path : Path) : Fault :=
  .missingKey (.str (verb ++ " " ++ v.kindText ++ " at path " ++ path.display))

def asKey (step : Json) : Except Fault Key :=
  match step.key? with
  | some key => .ok key
  | none => .error (noKey step)

/-- The part of a value that a step selects; `path` is the whole path, for the complaint. -/
def part (path : Path) (v step : Json) : Except Fault Json :=
  match v with
  | .obj _ fields => do
    match Fields.get? fields (← asKey step) with
    | some w => .ok w
    | none => .error (.missingKey step)
  | .arr items => do
    match items[← itemPosition items.length step]? with
    | some w => .ok w
    | none => .error .outOfRange
  | other => .error (noParts "Cannot navigate into" other path)

def follow (path : Path) : Json → Path → Except Fault Json
  | v, [] => .ok v
  | v, step :: rest => do follow path (← part path v step) rest

def getAt (v : Json) (path : Path) : Except Fault Json := follow path v path

/-- A value with one of its parts exchanged. A new key goes to the end of an object. -/
def putPart (path : Path) (v step new : Json) : Except Fault Json :=
  match v with
  | .obj kind fields => do return .obj kind (Fields.insert fields (← asKey step) new)
  | .arr items => do return .arr (items.set (← itemPosition items.length step) new)
  | other => .error (noParts "Cannot set value in" other path)

def put (path : Path) (new : Json) : Json → Path → Except Fault Json
  | _, [] => .error .outOfRange
  | v, [step] => putPart path v step new
  | v, step :: rest => do
    let w ← put path new (← part path v step) rest
    putPart path v step w

def setAt (v : Json) (path : Path) (new : Json) : Except Fault Json := put path new v path

/-- A text with one value exchanged for another, both of which have to be strings; nothing is to be
done if the first does not occur. -/
def exchange? (s : Text) (old new : Json) : Except Fault (Option Text) :=
  match old, new with
  | .str old, .str new => .ok (if Text.holds s old then some (Text.replace old new s) else none)
  | .str old, other =>
    if Text.holds s old then
      .error (.badKind ("replace() argument 2 must be str, not "
        ++ match other with
          | .null => "None"
          | _ => other.kindName))
    else .ok none
  | other, _ =>
    .error (.badKind ("'in <string>' requires string as left operand, not " ++ other.kindName))

/-- The document with `old` exchanged for `new` inside the string at a path; nothing is to be done if
there is no such string. -/
def replaceAt? (v : Json) (path : Path) (old new : Json) : Except Fault (Option Json) := do
  match ← v.getAt path with
  | .str s =>
    match ← exchange? s old new with
    | some t => return some (← v.setAt path (.str t))
    | none => return none
  | _ => return none

end Json

end ViewLint
