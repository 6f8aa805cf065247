import ViewLint.Pattern.Basic
import ViewLint.Rule.Basic
import ViewLint.Text.Scan

/-!
# References between components

Expressions, property bindings and scripts may refer to other components by walking the tree: up by
dots, down by names. The rule walks the same way and reports references that lead nowhere.
-/

namespace ViewLint

structure ComponentTree where
  names : List (Text × Json) := []
  paths : List (Json × List Text) := []
  parents : List (Text × Text) := []
  children : List (Text × List Text) := []

namespace ComponentTree

/-! ## Building -/

/-- The path of the parent, read off the path of a component. A line feed in it hides what stands
before. -/
def parentPath? (path : Text) : Option Text := do
  let (front, name) ← Text.rcut? "." path
  if name.isEmpty then none
  let (parent, index) ← Text.rcut? ".children" front
  match Text.bracketed? index with
  | some (_, []) => some (Text.afterLast "\n" parent)
  | _ => none

def addName : List (Json × List Text) → Json → Text → List (Json × List Text)
  | [], name, path => [(name, [path])]
  | (other, paths) :: rest, name, path =>
    if other.equals name then (other, paths ++ [path]) :: rest
    else (other, paths) :: addName rest name path

def add (t : ComponentTree) (path : Text) (name : Json) : ComponentTree :=
  let t := { t with names := Fields.insert t.names path name, paths := addName t.paths name path }
  match parentPath? path with
  | some parent =>
    if parent.isEmpty then t
    else { t with parents := Fields.insert t.parents path parent
                  children := Fields.modify t.children parent [] (· ++ [path]) }
  | none => t

def ofNodes (nodes : List Node) : Except Fault ComponentTree :=
  nodes.foldlM (fun t n =>
    match n.data with
    | .component name _ _ => do return t.add n.path (← name.lookupKey)
    | _ => .ok t) {}

/-! ## Walking -/

def parent? (t : ComponentTree) (path : Text) : Option Text := Fields.get? t.parents path

def up? (t : ComponentTree) : Nat → Text → Option Text
  | 0, path => some path
  | n + 1, path => (t.parent? path).bind (t.up? n)

def isNamed (t : ComponentTree) (name : Json) (path : Text) : Bool :=
  ((Fields.get? t.names path).map (·.equals name)).getD false

def child? (t : ComponentTree) (path : Text) (name : Json) : Option Text :=
  ((Fields.get? t.children path).getD []).find? (t.isNamed name)

def down? (t : ComponentTree) : Text → List Json → Option Text
  | path, [] => some path
  | path, name :: rest => (t.child? path name).bind (t.down? · rest)

def sibling? (t : ComponentTree) (path : Text) (name : Json) : Option Text := do
  let parent ← t.parent? path
  ((Fields.get? t.children parent).getD []).find? fun other => other != path && t.isNamed name other

def longestStart? (t : ComponentTree) (path : Text) : Option Text :=
  (t.names.map (·.1)).foldl (fun best p =>
    if Text.startsWith path p && (best.all fun b => b.length < p.length) then some p else best) none

def ownerMarkers : List Text := [".propConfig.", ".props.", ".events.", ".scripts."]

def ownerOf (t : ComponentTree) (path : Text) : Text :=
  match ownerMarkers.find? (Text.holds path) with
  | some marker => Text.before marker path
  | none => (t.longestStart? path).getD "root"

/-! ## Relative references -/

def propertyMarkers : List Text := [".props.", ".position.", ".meta.", ".custom."]

def componentPart (reference : Text) : Text :=
  match propertyMarkers.find? (Text.holds reference) with
  | some marker => Text.before marker reference
  | none => reference

structure Relative where
  levels : Nat
  reference : Text

/-- The dots of a reference at the front of a text, at least two and a slash behind, with the rest. -/
def dots? (s : Text) : Option (Nat × Text) :=
  let count := (s.takeWhile (· == .char '.')).length
  match s.drop count with
  | '/' :: r => if 2 ≤ count then some (count, r) else none
  | _ => none

def braced? (s : Text) : Option (Relative × Nat) := do
  let (count, rest) ← dots? (← Text.after? ['\x7b'] s)
  let (inner, used) ← Text.enclosed? [] '\x7d' rest
  return (⟨count - 1, componentPart inner⟩, count + 2 + used)

def inExpression (text : Text) : List Relative := Text.scan braced? text

/-- The relative reference that a path of a property binding is: one line, which a line feed may
end. -/
def ofTarget? (target : Text) : Option Relative := do
  let (count, rest) ← dots? target
  let line := rest.takeWhile (· != .char '\n')
  let ends := rest.drop line.length
  if line.isEmpty || !(ends.isEmpty || ends == [.char '\n']) then none
  else return ⟨count - 1, componentPart line⟩

def resolve? (t : ComponentTree) (start : Text) (reference : Text) : Option Text :=
  if Text.holds reference "/" then t.down? start ((Text.splitOn "/" reference).map .str)
  else t.child? start (.str reference)

def checkRelative (t : ComponentTree) (path kind title full : Text) (r : Relative) : Option Text :=
  match t.up? r.levels (t.ownerOf path) with
  | none => some (path ++ ": Relative " ++ kind ++ " '" ++ full ++ "' navigates above root component")
  | some start =>
    if ((t.resolve? start r.reference).getD []).isEmpty then
      some (path ++ ": " ++ title ++ " references non-existent component '" ++ r.reference ++ "' in: "
        ++ full)
    else none

/-! ## Scripts -/

def quotedName? (s : Text) : Option (Text × Nat) :=
  let isQuote (c : CodePoint) : Bool := c == '\'' || c == '"'
  match s with
  | q :: r =>
    let name := r.takeWhile (!isQuote ·)
    match r.drop name.length with
    | q' :: ')' :: _ =>
      if isQuote q && isQuote q' && !name.isEmpty then some (name, name.length + 3) else none
    | _ => none
  | [] => none

def siblingCall? (s : Text) : Option (Text × Nat) := do
  let marker : Text := "self.getSibling("
  let (name, used) ← quotedName? (← Text.after? marker s)
  return (name, marker.length + used)

def call? (s : Text) : Option ((Text × Text) × Nat) := do
  let rest ← Text.after? ['.'] s
  let method := rest.takeWhile Text.isLetter
  if method.isEmpty then none
  let (name, used) ← quotedName? (← Text.after? ['('] (rest.drop method.length))
  return ((method, name), method.length + 2 + used)

def calls (text : Text) : List (Text × Text) := Text.scan call? text

/-- A walk in a script: `self`, steps to the parent, then calls. -/
def chainPattern : Pattern :=
  .cat [.lit "self", .rep true 0 none (.lit ".parent"),
    .rep true 1 none (.cat [.lit ".", .many1 .letter, .lit "(", .many (.except (.char ')')), .lit ")"])]

def chains (text : Text) : List Text := (chainPattern.findAll text).map (·.matched)

def chainSteps (chain : Text) : List (Text × Option Text) :=
  let parent : Text × Option Text := ("parent", none)
  List.replicate (Text.occurrences ".parent" chain) parent
    ++ (calls chain).map fun (method, name) => (method, some name)

def checkCalls (t : ComponentTree) (path chain : Text) : Text → List (Text × Text) → Option Text
  | _, [] => none
  | here, (method, name) :: rest =>
    let missing (what : Text) : Option Text :=
      some (path ++ ": Component '" ++ name ++ "' not found as " ++ what ++ " in: " ++ chain)
    if method == "getSibling" then
      match t.sibling? here (.str name) with
      | some next => if next.isEmpty then missing "sibling" else t.checkCalls path chain next rest
      | none => missing "sibling"
    else if method == "getChild" then
      match t.child? here (.str name) with
      | some next => if next.isEmpty then missing "child" else t.checkCalls path chain next rest
      | none => missing "child"
    else t.checkCalls path chain here rest

def checkChain (t : ComponentTree) (path chain : Text) : Option Text :=
  match calls (Text.replace ".parent" "" chain) with
  | [] => none
  | steps =>
    match t.up? (Text.occurrences ".parent" chain) (t.ownerOf path) with
    | none => some (path ++ ": Navigation chain goes beyond root: " ++ chain)
    | some start => if start.isEmpty then none else t.checkCalls path chain start steps

def checkScript (t : ComponentTree) (path script : Text) : List Text :=
  ((Text.scan siblingCall? script).filterMap fun name =>
      if ((t.sibling? (t.ownerOf path) (.str name)).getD []).isEmpty then
        some (path ++ ": Script references non-existent sibling component '" ++ name ++ "'")
      else none)
    ++ (chains script).filterMap (t.checkChain path)

end ComponentTree

/-! ## The rule -/

namespace ComponentReference

structure Config where
  scope : Scope
  expressions : Bool
  bindings : Bool
  scripts : Bool

def purpose : Text :=
  "Validates that component references (expressions, property bindings, scripts) resolve to "
    ++ "components that actually exist in the view hierarchy"

def kinds : List NodeKind :=
  [.component, .expressionBinding, .propertyBinding, .eventHandler, .messageHandler, .customMethod,
    .transform]

def create (config : Json) : Except Fault Config := do
  let args ← ruleArguments config
  checkArguments "ComponentReferenceValidationRule"
    ["severity", "validate_expressions", "validate_property_bindings", "validate_scripts"] args
  let flag (key : Text) : Bool := (argument args key (.bool true)).isTrue
  return { scope := { targets := .kinds kinds, severity := severityArgument args }
           expressions := flag "validate_expressions"
           bindings := flag "validate_property_bindings"
           scripts := flag "validate_scripts" }

namespace Config

def complaints (c : Config) (t : ComponentTree) (n : Node) : Except Fault (List Text) :=
  let noText : Except Fault (List Text) := .error (.badKind "expected string or bytes-like object")
  match n.data with
  | .expressionBinding v _ =>
    if !c.expressions || !v.isTrue then .ok [] else match v with
      | .str text => .ok ((ComponentTree.inExpression text).filterMap
          (t.checkRelative n.path "expression" "Expression" text))
      | _ => noText
  | .propertyBinding v _ =>
    if !c.bindings || !v.isTrue then .ok [] else match v with
      | .str text => .ok ((ComponentTree.ofTarget? text).bind
          (t.checkRelative n.path "property binding" "Property Binding" text)).toList
      | other => .error (.lacks other "startswith")
  | .script s =>
    if !c.scripts || !s.text.isTrue then .ok [] else match s.text with
      | .str text => .ok (t.checkScript n.path text)
      | _ => noText
  | _ => .ok []

def check (c : Config) (nodes : List Node) : Except Fault (List Finding) := do
  let tree ← ComponentTree.ofNodes nodes
  let found ← (← c.scope.select nodes).mapM (c.complaints tree)
  return found.flatten.map fun m => ⟨c.scope.severity, m⟩

end Config

end ComponentReference

end ViewLint
