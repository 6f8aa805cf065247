import ViewLint.View.Flatten
import ViewLint.View.Path

/-!
# Where the paths of a flattened view lead

The paths of a flattened view hold the names of components, which are no keys of the document. A
locator records for each such path the path into the document.
-/

namespace ViewLint

structure Landmark where
  /-- The path in the flattened view. The name of a component at the root may be no string. -/
  key : Json
  place : Path
  isComponent : Bool

structure Locator where
  places : List (Json × Path) := []
  names : List (Json × Path) := []

namespace Locator

mutual

def landmarks (key : Text) (place : Path) : Json → Except Fault (List Landmark)
  | .obj _ fields => do
    match ← View.componentName? fields with
    | none => landmarksFields key place fields
    | some name =>
      let own : Json := if key == "" then name else .str (View.child key name.display)
      if own.isContainer then .error own.noKey
      let rest ← landmarksFields own.display place fields
      return ⟨own, place, true⟩ :: rest
  | .arr items => landmarksItems key place 0 items
  | _ => .ok []

def landmarksItems (key : Text) (place : Path) : Nat → List Json → Except Fault (List Landmark)
  | _, [] => .ok []
  | index, x :: xs => do
    let here := View.item key index
    let spot := place ++ [.int index]
    let own ← if x.isContainer then landmarks here spot x else .ok [⟨.str here, spot, false⟩]
    return own ++ (← landmarksItems key place (index + 1) xs)

def landmarksFields (key : Text) (place : Path) :
    List (Key × Json) → Except Fault (List Landmark)
  | [] => .ok []
  | (k, v) :: fields => do
    let here := View.child key k.display
    let spot := place ++ [k.toJson]
    let own ← if v.isContainer then landmarks here spot v else .ok [⟨.str here, spot, false⟩]
    return own ++ (← landmarksFields key place fields)

end

def record : List (Json × Path) → Json → Path → List (Json × Path)
  | [], key, place => [(key, place)]
  | (k, p) :: rest, key, place =>
    if k.equals key then (k, place) :: rest else (k, p) :: record rest key place

def add (l : Locator) (m : Landmark) : Locator where
  places := record l.places m.key m.place
  names := if m.isComponent then record l.names m.key (m.place ++ [.str "meta", .str "name"])
    else l.names

def ofDocument (doc : Json) : Except Fault Locator := do
  return (← landmarks "" [] doc).foldl add {}

def lookup (table : List (Json × Path)) (key : Json) : Option Path :=
  (table.find? fun entry => entry.1.equals key).map (·.2)

def place? (l : Locator) (key : Json) : Option Path := lookup l.places key

def namePlace? (l : Locator) (key : Json) : Option Path := lookup l.names key

def startsWith (key start : Json) : Except Fault Bool :=
  match key, start with
  | .str s, .str t => .ok (Text.startsWith s t)
  | .str _, other => .error (.badKind
      ("startswith first arg must be str or a tuple of str, not " ++ other.kindName))
  | other, _ => .error (.lacks other "startswith")

def startingWith (l : Locator) (start : Json) : Except Fault (List Json) :=
  (l.places.map (·.1)).filterM (startsWith · start)

def components (l : Locator) : List Json := l.names.map (·.1)

end Locator

end ViewLint
