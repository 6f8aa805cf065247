import ViewLint.Rule.Basic

/-!
# Data kept in custom properties

Custom properties of a view should hold settings, not data. The rule works on the flattened view and
looks for long arrays, many properties side by side, deep nesting, and many values altogether.
-/

namespace ViewLint.ContextData

/-! ## Measures -/

def customPaths (flat : Flat) : List Text :=
  (Fields.keys flat).filter (Text.startsWith · "custom.")

def arrayIndex? (path : Text) : Option (Text × Text) :=
  let tail := (path.drop 7).dropWhile (· != .char '[')
  let head := path.take (path.length - tail.length)
  if Text.startsWith path "custom." && 7 < head.length then
    (Text.bracketed? tail).map fun r => (head, r.1)
  else none

/-- The arrays right below custom properties, with their largest index. -/
def arrayLengths (flat : Flat) : Except Fault (List (Text × Nat)) :=
  (Fields.keys flat).foldlM (fun sizes path =>
    match arrayIndex? path with
    | none => .ok sizes
    | some (array, digits) =>
      if Json.digitLimit < digits.length then
        .error (.badValue (Json.digitLimitMessage digits.length))
      else
        let index := Text.digitsValue digits
        .ok (Fields.modify sizes array index (max index))) []

def pathSteps (path : Text) : List Text := Text.splitOn "." (Text.dropIndices path)

def parents (steps : List Text) : List (Text × Text) :=
  (List.range steps.length).filterMap fun i =>
    if 2 ≤ i then (steps[i]?).map fun child => (Text.join "." (steps.take i), child) else none

def siblings (flat : Flat) : List (Text × List Text) :=
  ((customPaths flat).flatMap (parents ∘ pathSteps)).foldl (fun table (parent, child) =>
    Fields.modify table parent [] fun seen => if seen.contains child then seen else child :: seen) []

def deepest (flat : Flat) : Nat × Text :=
  (customPaths flat).foldl (fun best path =>
    let depth := (pathSteps path).length - 1
    if best.1 < depth then (depth, Text.dropIndices path) else best) (0, "")

/-! ## The rule -/

structure Config where
  scope : Scope
  maxArray : Json
  maxSiblings : Json
  maxDepth : Json
  maxPoints : Json

def purpose : Text := "Detection of excessive context data in custom properties"

def create (config : Json) : Except Fault Config := do
  let args ← ruleArguments config
  checkArguments "ExcessiveContextDataRule"
    ["max_array_size", "max_sibling_properties", "max_nesting_depth", "max_data_points", "severity"]
    args
  return { scope := { targets := .kinds [], severity := severityArgument args }
           maxArray := argument args "max_array_size" (.int 50)
           maxSiblings := argument args "max_sibling_properties" (.int 50)
           maxDepth := argument args "max_nesting_depth" (.int 5)
           maxPoints := argument args "max_data_points" (.int 1000) }

namespace Config

def limited (c : Config) (count : Nat) (limit : Json) (message : Text) :
    Except Fault (List Finding) := do
  if ← Json.countAbove count limit then return [⟨c.scope.severity, message⟩] else return []

def checkArray (c : Config) (array : Text) (last : Nat) : Except Fault (List Finding) := do
  if !(← Json.countAbove (last + 1) c.maxArray) then return []
  return [⟨c.scope.severity,
    array ++ ": Custom property '" ++ Text.replace "custom." "" array ++ "' contains "
      ++ (← writtenInt (last + 1)) ++ " items. Large datasets should be stored in databases, not view "
      ++ "JSON. Maximum recommended: " ++ c.maxArray.display ++ " items."⟩]

def checkSiblings (c : Config) (parent : Text) (children : List Text) :
    Except Fault (List Finding) :=
  c.limited children.length c.maxSiblings
    (parent ++ ": Contains " ++ natText children.length ++ " sibling properties. Large flat "
      ++ "structures should be stored in databases, not view JSON. Maximum recommended: "
      ++ c.maxSiblings.display ++ " siblings.")

def checkDepth (c : Config) (depth : Nat) (path : Text) : Except Fault (List Finding) :=
  c.limited depth c.maxDepth
    (path ++ ": Custom properties are nested " ++ natText depth ++ " levels deep. Deeply nested "
      ++ "structures indicate complex data that should be in databases. Maximum recommended: "
      ++ c.maxDepth.display ++ " levels.")

def checkPoints (c : Config) (count : Nat) : Except Fault (List Finding) :=
  c.limited count c.maxPoints
    ("custom: Contains " ++ natText count ++ " total data points across all custom properties. Large "
      ++ "volumes of data should be stored in databases, not view JSON. Maximum recommended: "
      ++ c.maxPoints.display ++ " data points.")

def check (c : Config) (flat : Flat) : Except Fault (List Finding) := do
  let arrays ← (← arrayLengths flat).mapM fun a => c.checkArray a.1 a.2
  let breadth ← (siblings flat).mapM fun s => c.checkSiblings s.1 s.2
  let depth ← c.checkDepth (deepest flat).1 (deepest flat).2
  let points ← c.checkPoints (customPaths flat).length
  return arrays.flatten ++ breadth.flatten ++ depth ++ points

end Config

end ViewLint.ContextData
