import ViewLint.Json.Access
import ViewLint.Rule.ComponentReference

/-!
# Questions about a tree of components

Paths and names are given as values, which need not be texts. What is searched for a marker has to be
searchable, and what is looked up has to be a key; any other value is refused.
-/

namespace ViewLint.ComponentTree

inductive Question where
  | parent (path : Json)
  | componentPart (reference : Json)
  | owner (path : Json)
  | child (path name : Json)
  | sibling (path name : Json)
  | down (path names : Json)
  | steps (chain : Json)

/-- What stands before the first of some markers that a value holds, if it holds one. -/
def beforeMarker? (markers : List Text) (v : Json) : Except Fault (Option Text) := do
  match ← markers.findM? fun m => v.holds (.str m) with
  | none => return none
  | some marker => match v with
    | .str s => return some (Text.before marker s)
    | other => .error (.lacks other "split")

/-- What a lookup gives for a value: nothing is known under a value that is no text. -/
def lookup (find? : Text → Option Text) (v : Json) : Except Fault Json := do
  return .optional ((← v.lookupKey).str?.bind find?)

def answer (t : ComponentTree) : Question → Except Fault Json
  | .parent path => do
    if ← path.holds (.str ".children[") then return .optional (parentPath? (← path.asText))
    return .null
  | .componentPart reference => do
    return ((← beforeMarker? propertyMarkers reference).map .str).getD reference
  | .owner path => do
    match ← beforeMarker? ownerMarkers path, path with
    | some owner, _ => return .str owner
    | none, .str path => return .str (t.ownerOf path)
    | none, other => if t.names.isEmpty then return .str "root" else .error (.lacks other "startswith")
  | .child path name => lookup (t.child? · name) path
  | .sibling path name => lookup (t.sibling? · name) path
  | .down path names => do
    match ← names.parts with
    | [] => return path
    | first :: rest => lookup (t.down? · (first :: rest)) path
  | .steps (.str chain) =>
    .ok (.arr ((chainSteps chain).map fun (method, name) => .arr [.str method, .optional name]))
  | .steps (.arr chain) => do return .str (← (Json.arr chain).asText)
  | .steps other => .error (.lacks other "count")

end ViewLint.ComponentTree
