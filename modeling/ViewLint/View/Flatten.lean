import ViewLint.Fault

/-!
# Flattened views

A view is a tree of components. Its flattened form lists every value with the path that leads to it,
in document order. The name of a component, which stands in its `meta` object, is a step of the path
of everything inside the component.
-/

namespace ViewLint

abbrev Flat := List (Text × Json)

/-- Whether an object stands for a point in time: `$` holds `"ts"` and two numbers, `$ts` holds a
number, and there is nothing else. -/
def Json.isJavaDate : Json → Bool
  | .obj _ fields =>
    match Fields.get? fields (.name "$"), Fields.get? fields (.name "$ts") with
    | some (.arr [.str tag, precision, nanos]), some stamp =>
      tag == "ts" && precision.isNumber && nanos.isNumber && stamp.isNumber && fields.length == 2
    | _, _ => false
  | _ => false

namespace View

/-- The name in the `meta` object of an object, if it counts as true. -/
def componentName? (fields : List (Key × Json)) : Except Fault (Option Json) :=
  match Fields.get? fields (.name "meta") with
  | none => .ok none
  | some (.obj _ info) =>
    match Fields.get? info (.name "name") with
    | some name => .ok (if name.isTrue then some name else none)
    | none => .ok none
  | some other => .error (.lacks other "get")

def child (path key : Text) : Text := if path == "" then key else path ++ "." ++ key

def item (path : Text) (index : Nat) : Text := path ++ "[" ++ natText index ++ "]"

def inside (path : Text) (fields : List (Key × Json)) : Except Fault Text :=
  (componentName? fields).map fun
    | some name => child path name.display
    | none => path

mutual

def entries (path : Text) : Json → Except Fault Flat
  | .obj _ fields => do entriesFields (← inside path fields) fields
  | .arr items => entriesItems path 0 items
  | _ => .ok []

def entriesItems (path : Text) : Nat → List Json → Except Fault Flat
  | _, [] => .ok []
  | index, x :: xs => do
    let here := item path index
    let own ← if x.isContainer then entries here x else .ok [(here, x)]
    let rest ← entriesItems path (index + 1) xs
    return own ++ rest

def entriesFields (path : Text) : List (Key × Json) → Except Fault Flat
  | [] => .ok []
  | (key, v) :: fields => do
    let here := child path key.display
    let own ← if v.isJavaDate then .ok [(here ++ "._JavaDate", (v.get? "$ts").getD .null)]
      else if v.isContainer then entries here v
      else .ok [(here, v)]
    let rest ← entriesFields path fields
    return own ++ rest

end

def flattenAt (path : Text) (view : Json) : Except Fault Flat :=
  (entries path view).map Fields.ofPairs

def flatten (view : Json) : Except Fault Flat := flattenAt "" view

end View

end ViewLint
