import ViewLint.Model.Build
import ViewLint.View.Path

/-!
# What rules have in common

A rule has a scope: the kinds of node that it looks at, and the severity of its findings.
-/

namespace ViewLint

inductive Severity where
  | warning
  | error
  deriving DecidableEq

namespace Severity

def name : Severity → Text
  | warning => "warning"
  | error => "error"

def ofJson? (v : Json) : Option Severity :=
  if v.equals (.str "warning") then some .warning
  else if v.equals (.str "error") then some .error
  else none

end Severity

inductive Targets where
  /-- The kinds themselves; none at all means every kind. -/
  | kinds (ks : List NodeKind)
  | other (v : Json)

namespace Targets

def admits : Targets → NodeKind → Except Fault Bool
  | .kinds ks, k => .ok (ks.isEmpty || ks.contains k)
  | .other (.arr _), _ => .ok false
  | .other (.obj _ _), _ => .ok false
  | .other v, _ => .error (.badKind ("argument of type '" ++ v.kindName ++ "' is not iterable"))

def names : Targets → Except Fault (List Text)
  | .kinds ks => .ok (ks.map NodeKind.name)
  | .other v =>
    if v.isNumber then .error (.badKind ("'" ++ v.kindName ++ "' object is not iterable"))
    else .error (.lacks v "value")

end Targets

def reservedNames : List Text := ["_JavaDate"]

def Node.isPrivateProperty (n : Node) : Except Fault Bool :=
  match n.data with
  | .property (.str name) _ _ _ => .ok (Text.startsWith name "_" || reservedNames.contains name)
  | .property other _ _ _ => .error (.lacks other "startswith")
  | _ => .ok false

structure Scope where
  targets : Targets
  severity : Severity
  includePrivate : Bool := false

namespace Scope

def admits (s : Scope) (n : Node) : Except Fault Bool := do
  if !(← s.targets.admits n.kind) then return false
  if ← n.isPrivateProperty then return s.includePrivate
  return true

def select (s : Scope) (nodes : List Node) : Except Fault (List Node) := nodes.filterM s.admits

/-- The scripts among nodes by path, as rules collect them; of two at one path the later one counts. -/
def scripts (nodes : List Node) : List (Text × Script) :=
  Fields.ofPairs (nodes.filterMap fun n => n.script?.map (n.path, ·))

end Scope

structure Finding where
  severity : Severity
  message : Text
  deriving DecidableEq

namespace Finding

def messages (s : Severity) (fs : List Finding) : List Text :=
  (fs.filter (·.severity == s)).map (·.message)

end Finding

/-! ## Configured values -/

def ruleArguments (config : Json) : Except Fault (List (Text × Json)) :=
  match config.fields? with
  | some fields => .ok (fields.filter fun f => !Text.startsWith f.1 "_")
  | none => .error (.lacks config "items")

def argument (args : List (Text × Json)) (key : Text) (default : Json) : Json :=
  (Fields.get? args key).getD default

def checkArguments (rule : Text) (known : List Text) (args : List (Text × Json)) :
    Except Fault Unit :=
  match args.find? fun a => !known.contains a.1 with
  | some (key, _) =>
    .error (.badKind (rule ++ ".__init__() got an unexpected keyword argument '" ++ key ++ "'"))
  | none => .ok ()

def severityArgument (args : List (Text × Json)) : Severity :=
  (Severity.ofJson? (argument args "severity" (.str "error"))).getD .error

/-- A value with remarks for the user, which are kept even if there is no value. -/
structure Remarked (α : Type) where
  remarks : List Text
  result : Except Fault α

namespace Json

/-- Whether a value holds another: as an item, as a key, or as a part of a text. -/
def holds (v item : Json) : Except Fault Bool :=
  match v, item with
  | .arr items, _ => .ok (items.any (·.equals item))
  | .obj _ fields, _ => do return Fields.has fields (← asKey item)
  | .str s, .str part => .ok (Text.holds s part)
  | .str _, _ =>
    .error (.badKind ("'in <string>' requires string as left operand, not " ++ item.kindName))
  | other, _ => .error (.badKind ("argument of type '" ++ other.kindName ++ "' is not iterable"))

def setOf (elements : List Json) : Json :=
  .obj .plain (elements.filterMap fun e => e.key?.map (·, .null))

def length (v : Json) : Except Fault Nat :=
  match v with
  | .str s => .ok s.length
  | .arr items => .ok items.length
  | .obj _ fields => .ok fields.length
  | other => .error (.badKind ("object of type '" ++ other.kindName ++ "' has no len()"))

def countBelow (n : Nat) (v : Json) : Except Fault Bool :=
  if v.isNumber then .ok (compareNumbers? (.int n) v == some .lt)
  else .error (.badKind ("'<' not supported between instances of 'int' and '" ++ v.kindName ++ "'"))

def countAbove (n : Nat) (v : Json) : Except Fault Bool :=
  if v.isNumber then .ok (compareNumbers? (.int n) v == some .gt)
  else .error (.badKind ("'>' not supported between instances of 'int' and '" ++ v.kindName ++ "'"))

def countReaches (n : Nat) (v : Json) : Except Fault Bool :=
  if v.isNumber then
    .ok (compareNumbers? (.int n) v == some .gt || compareNumbers? (.int n) v == some .eq)
  else .error (.badKind ("'>=' not supported between instances of 'int' and '" ++ v.kindName ++ "'"))

/-- The elements of a value as a set: its parts, none of which may be an array or an object. -/
def elements (v : Json) : Except Fault (List Json) := do (← v.parts).mapM lookupKey

end Json

end ViewLint
