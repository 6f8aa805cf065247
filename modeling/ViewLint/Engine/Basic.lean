import ViewLint.Engine.Rule
import ViewLint.Json.Printer

/-!
# The lint engine

The engine holds rules and the model of the view that was loaded last. It offers the nodes of the view
to every rule and collects what they say.
-/

namespace ViewLint

/-- What the rules say about a view. Rules without messages are left out. -/
structure LintResults where
  warnings : List (Text × List Text) := []
  errors : List (Text × List Text) := []
  timed : List Text := []
  customWarnings : List (Text × Text) := []
  customErrors : List (Text × Text) := []
  fixes : List Fix := []

namespace LintResults

def hasErrors (r : LintResults) : Bool := !r.errors.isEmpty

def count (messages : List (Text × List Text)) : Nat :=
  messages.foldl (fun n m => n + m.2.length) 0

def field (key : Text) (messages : List Text) : List (Text × List Text) :=
  if messages.isEmpty then [] else [(key, messages)]

def textField (key : Text) : Option Text → List (Text × Text)
  | some text => if text.isEmpty then [] else [(key, text)]
  | none => []

def add (r : LintResults) (timing : List Text) (rule : Rule) : Except Fault LintResults := do
  let formatted ← rule.format
  return { r with
    warnings := r.warnings ++ field rule.name (rule.messages .warning)
    errors := r.errors ++ field rule.name (rule.messages .error)
    timed := r.timed ++ timing
    customWarnings := r.customWarnings ++ textField rule.name (formatted.bind (·.warnings))
    customErrors := r.customErrors ++ textField rule.name (formatted.bind (·.errors)) }

end LintResults

structure Engine where
  rules : List Rule
  flat : Flat := []
  model : Option Model := none
  stamp : Nat := 0
  debugOutput : Option Text := none

namespace Engine

/-! ## Loading -/

def saveTo (e : Engine) (directory : Json) : Session Engine := do
  let name ← Session.lift directory.fileName
  Session.makeDirectories (FileName.tidy name)
  return { e with debugOutput := some name }

/-- An engine with rules, which saves what it knows about each view if a directory is named. -/
def create (rules : List Rule) (debugOutput : Json) : Session Engine :=
  if debugOutput.isTrue then saveTo { rules } debugOutput else return { rules }

def load (e : Engine) (flat : Flat) : Except Fault Engine := do
  return { e with flat, model := some (← Model.build flat), stamp := e.stamp + 1 }

def nodes (e : Engine) : List Node := (e.model.map Model.offered).getD []

def allNodes (e : Engine) : List Node := (e.model.map Model.allNodes).getD []

/-- The engine after scripts of the loaded view have been made into functions. -/
def settle (e : Engine) (formatted : List ScriptCheck.Waiting) : Engine :=
  let paths := (formatted.filter (·.stamp == e.stamp)).map (·.path)
  if paths.isEmpty then e else { e with model := e.model.map (·.settle paths) }

/-! ## What is known about the loaded view -/

structure Coverage where
  targets : List Text
  count : Nat
  deriving DecidableEq

def isSelective (r : Rule) : Bool :=
  match r.check.scope.targets with
  | .kinds ks => !ks.isEmpty
  | .other v => v.isTrue

def targeted (r : Rule) (nodes : List Node) : Except Fault (List Node) :=
  nodes.filterM fun n => r.check.scope.targets.admits n.kind

def targetNames (r : Rule) : Except Fault (List Text) := do
  return Text.sort (← r.check.scope.targets.names)

def coverage (r : Rule) (nodes : List Node) : Except Fault Coverage := do
  if !isSelective r then return ⟨["all"], nodes.length⟩
  let mine ← targeted r nodes
  return ⟨← targetNames r, mine.length⟩

def tally : List Json → List (Json × Nat)
  | keys => keys.foldl add []
where
  add : List (Json × Nat) → Json → List (Json × Nat)
    | [], key => [(key, 1)]
    | (k, n) :: rest, key => if k.equals key then (k, n + 1) :: rest else (k, n) :: add rest key

structure Statistics where
  total : Nat
  kinds : List (Text × Nat)
  componentTypes : List (Json × Nat)
  coverage : List (Text × Coverage)
  collections : List Text

def statistics (e : Engine) : Except Fault Statistics := do
  let nodes := e.nodes
  let kinds := NodeKind.all.filterMap fun k =>
    let n := (nodes.filter (·.kind == k)).length
    if n == 0 then none else some (k.name, n)
  let types ← (nodes.filterMap fun n => match n.data with
    | .component _ type _ => some type
    | _ => none).mapM Json.lookupKey
  return { total := nodes.length, kinds, componentTypes := tally types
           coverage := ← e.rules.mapM fun r => do return (r.name, ← coverage r nodes)
           collections := (e.model.map fun m => m.collections.map (·.1)).getD [] }

def preview (length : Nat) (v : Json) : Except Fault Text := (Node.preview length v).map Json.display

def summary (n : Node) : Except Fault Text :=
  match n.data with
  | .component name type _ =>
    .ok ("Component '" ++ name.display ++ "' of type '" ++ type.display ++ "'")
  | .expressionBinding expression _ => (preview 50 expression).map ("Expression: " ++ ·)
  | .tagBinding tagPath _ _ _ => .ok ("Tag path: " ++ tagPath.display)
  | .propertyBinding target _ => .ok ("Property path: " ++ target.display)
  | .script s => (preview 30 s.text).map ("Script: " ++ ·)
  | _ => .ok (n.kind.name ++ " node")

structure Impact where
  targets : List Text
  count : Nat
  samples : List Text
  details : List (Text × Text × Text)

def impact (r : Rule) (nodes : List Node) : Except Fault Impact := do
  if !isSelective r then
    return { targets := ["all"], count := nodes.length
             samples := (nodes.take 5).map (·.path), details := [] }
  let mine ← targeted r nodes
  let targets ← targetNames r
  let details ← (mine.take 3).mapM fun n => do return (n.path, n.kind.name, ← summary n)
  return { targets, count := mine.length, samples := (mine.take 5).map (·.path), details }

def analysis (e : Engine) : Except Fault (List (Text × Impact)) :=
  e.rules.mapM fun r => do return (r.name, ← impact r e.allNodes)

/-- The nodes of the loaded view that have one of the named kinds, with remarks about unknown names.
Without any known name all nodes are given. -/
def debugNodes (e : Engine) (kinds : Json) : List Text × Except Fault (List Json) :=
  match if kinds.isTrue then kinds.parts else .ok [] with
  | .error f => ([], .error f)
  | .ok names =>
    let known := names.filterMap fun n => n.str?.bind NodeKind.ofName?
    let unknown := names.filter fun n => (n.str?.bind NodeKind.ofName?).isNone
    let remarks := unknown.map fun n =>
      "Warning: Unknown node type '" ++ n.display ++ "'. Available types: " ++ NamePattern.kindList
    (remarks, (e.allNodes.filter (·.isOf known)).mapM Node.serialize)

def serialize (e : Engine) : Except Fault (List (Text × Json)) := do
  match e.model with
  | none => return []
  | some m =>
    return (← m.serialize).map fun (name, nodes) =>
      (name, .object [("count", .int nodes.length), ("nodes", .arr nodes)])

/-! ## Saving what is known -/

def comparable (a b : Json) : Bool :=
  match a, b with
  | .str _, .str _ => true
  | a, b => a.isNumber && b.isNumber

def keyLe (a b : Json) : Bool :=
  match a, b with
  | .str s, .str t => Text.le s t
  | a, b => Json.compareNumbers? a b != some .gt

def firstClash? : List Json → Option (Json × Json)
  | a :: b :: rest => if comparable a b then firstClash? (b :: rest) else some (a, b)
  | _ => none

def sortCounts (counts : List (Json × Nat)) : Except Fault (List (Json × Nat)) :=
  match firstClash? (counts.map (·.1)) with
  | some (a, b) => .error (.badKind ("'<' not supported between instances of '" ++ b.kindName
      ++ "' and '" ++ a.kindName ++ "'"))
  | none => .ok (counts.mergeSort fun a b => keyLe a.1 b.1)

def sortedText (v : Json) : Text := v.sortKeys.render .asciiDocument

def Statistics.toJson (s : Statistics) : Except Fault Json := do
  let types ← sortCounts s.componentTypes
  let rest := Json.object [("total_nodes", .int s.total),
    ("node_type_counts", .object (s.kinds.map fun (k, n) => (k, .int n))),
    ("rule_coverage", .object (s.coverage.map fun (r, c) =>
      (r, .object [("target_types", .arr (c.targets.map .str)),
        ("applicable_node_count", .int c.count)]))),
    ("model_keys", .arr (s.collections.map .str))]
  let byType : Json := .obj .plain (types.filterMap fun (k, n) => k.key?.map (·, .int n))
  return .object (("components_by_type", byType) :: rest.sortKeys.fields?.getD [])

/-- Writes statistics to a file. If the types of components cannot be put in order, the writing ends
where they should stand. -/
def Statistics.write (s : Statistics) (name : Text) : Session Unit := do
  match s.toJson with
  | .ok v => Session.writeFile name (v.render .asciiDocument)
  | .error f =>
    Session.writeFile name "\x7b\n  \"components_by_type\": \x7b\n    "
    Session.fail f

/-- Writes what is known about the loaded view, which is built anew on the way. The files have names
that are made from what they hold. -/
def writeDebug (e : Engine) (file : Text → Text) : Session Engine := do
  Session.writeFile (file "flattened.json") (sortedText (.object e.flat))
  let model ← Session.lift e.serialize
  Session.writeFile (file "model.json") (sortedText (.object model))
  let e ← Session.lift (e.load e.flat)
  let stats ← Session.lift e.statistics
  stats.write (file "stats.json")
  return e

def saveDebug (e : Engine) (directory : Text) (source : Json) : Session Engine := do
  let name ← Session.lift source.fileName
  let file (part : Text) : Text := FileName.child directory (FileName.stem name ++ "_" ++ part)
  let e ← e.writeDebug file
  Session.printLines ["✅ Debug files saved:", "   - Flattened JSON: " ++ file "flattened.json",
    "   - Model state: " ++ file "model.json", "   - Statistics: " ++ file "stats.json"]
  return e

/-- Saves what is known about the loaded view, if that is asked for. A refusal is only reported. -/
def saveDebugIfAsked (e : Engine) (source : Json) : Session Engine := do
  let directory := e.debugOutput.getD []
  if directory.isEmpty || !source.isTrue then return e
  match ← Session.attempt (e.saveDebug directory source) with
  | .ok e => return e
  | .error f =>
    match f with
    | .storage _ | .badKind _ | .badValue _ | .unencodable _ =>
      Session.printLine ("⚠️  Warning: Could not save debug files: " ++ f.message)
      return e
    | _ => Session.fail f

/-! ## Applying the rules -/

def applyRules (source : Json) (locator : Option Locator) (timing : Bool) :
    List Rule → Engine → LintResults → Session (Engine × LintResults)
  | [], e, results => return (e, results)
  | r :: rest, e, results => do
    let subject : Rule.Subject := { flat := e.flat, nodes := e.nodes, stamp := e.stamp, source, locator }
    let (r, formatted) ← r.process subject
    let results ← Session.lift (results.add (if timing then [r.name] else []) r)
    applyRules source locator timing rest { e.settle formatted with rules := e.rules ++ [r] } results

def process (e : Engine) (source : Json) (locator : Option Locator) (timing : Bool) :
    Session (Engine × LintResults) := do
  let e ← e.saveDebugIfAsked source
  let (e, results) ← applyRules source locator timing e.rules { e with rules := [] } {}
  return (e, { results with fixes := e.rules.flatMap (·.fixes) })

def finishRules (timing : Bool) :
    List Rule → Engine → LintResults → Session (Engine × LintResults)
  | [], e, results => return (e, results)
  | r :: rest, e, results => do
    if !r.hasFinish then finishRules timing rest { e with rules := e.rules ++ [r] } results
    else
      let (r, formatted) ← r.finalize
      let results ← Session.lift (results.add (if timing then [r.name ++ "_finalize"] else []) r)
      finishRules timing rest { e.settle formatted with rules := e.rules ++ [r] } results

def finalize (e : Engine) (timing : Bool) : Session (Engine × LintResults) :=
  finishRules timing e.rules { e with rules := [] } {}

def reset (e : Engine) : Engine := { e with rules := e.rules.map Rule.reset }

end Engine

end ViewLint
