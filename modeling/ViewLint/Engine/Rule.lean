import ViewLint.Rule.BindingCount
import ViewLint.Rule.ComponentReference
import ViewLint.Rule.ContextData
import ViewLint.Rule.NameLength
import ViewLint.Rule.NamePattern
import ViewLint.Rule.NameStyle
import ViewLint.Rule.Polling
import ViewLint.Rule.Traversal
import ViewLint.Rule.UnusedProperty
import ViewLint.ScriptCheck.Basic

/-!
# Rules

A rule is one of ten checks with its settings and what it remembers, its findings and its fixes.
-/

namespace ViewLint

inductive Check where
  | scripts (c : ScriptCheck.Config) (st : ScriptCheck.State)
  | polling (c : Polling.Config)
  | names (c : NamePattern.Config) (locator : Option Locator)
  | traversal (c : Traversal.Config)
  | references (c : ComponentReference.Config)
  /-- The flag tells whether a view has been handled since the last reset. -/
  | unused (c : UnusedProperty.Config) (complete : Bool)
  | contextData (c : ContextData.Config)
  | nameStyle
  | nameLength (c : NameLength.Config)
  | bindingCount (c : BindingCount.Config) (table : BindingCount.Table)

namespace Check

def name : Check → Text
  | .scripts .. => "PylintScriptRule"
  | .polling .. => "PollingIntervalRule"
  | .names .. => "NamePatternRule"
  | .traversal .. => "BadComponentReferenceRule"
  | .references .. => "ComponentReferenceValidationRule"
  | .unused .. => "UnusedCustomPropertiesRule"
  | .contextData .. => "ExcessiveContextDataRule"
  | .nameStyle => "ExampleMixedSeverityRule"
  | .nameLength .. => "ExampleNameLengthRule"
  | .bindingCount .. => "ExampleBindingCountRule"

def scope : Check → Scope
  | .scripts c _ => c.scope
  | .polling c => c.scope
  | .names c _ => c.scope
  | .traversal c => c.scope
  | .references c => c.scope
  | .unused c _ => c.scope
  | .contextData c => c.scope
  | .nameStyle => NameStyle.scope
  | .nameLength c => c.scope
  | .bindingCount c _ => c.scope

def purpose : Check → Text
  | .scripts .. => ScriptCheck.purpose
  | .polling c => c.purpose
  | .names c _ => c.purpose
  | .traversal _ => Traversal.purpose
  | .references _ => ComponentReference.purpose
  | .unused .. => UnusedProperty.purpose
  | .contextData _ => ContextData.purpose
  | .nameStyle => NameStyle.purpose
  | .nameLength c => c.purpose
  | .bindingCount c _ => c.purpose

def withLocator (locator : Option Locator) : Check → Check
  | .names c old => .names c (match locator with
    | some l => some l
    | none => old)
  | check => check

/-- What a rule says about a view, given by its flattened form and its nodes: the rule afterwards, the
findings and the fixes. The script rule says nothing here. -/
def inspect (flat : Flat) (nodes : List Node) (check : Check) :
    Except Fault (Check × List Finding × List Fix) :=
  match check with
  | .scripts .. => .ok (check, [], [])
  | .polling c => do return (check, ← c.check nodes, [])
  | .names c locator => do
    let (findings, fixes) ← c.check (locator.map fun l => ⟨flat, l⟩) nodes
    return (check, findings, fixes)
  | .traversal c => do return (check, ← c.check nodes, [])
  | .references c => do return (check, ← c.check nodes, [])
  | .unused c _ => do return (.unused c true, ← c.check flat nodes, [])
  | .contextData c => do return (check, ← c.check flat, [])
  | .nameStyle => do return (check, ← NameStyle.check nodes, [])
  | .nameLength c => do return (check, ← c.check nodes, [])
  | .bindingCount c table => do
    let (findings, table) ← c.check table nodes
    return (.bindingCount c table, findings, [])

end Check

structure Rule where
  check : Check
  findings : List Finding := []
  fixes : List Fix := []

namespace Rule

def name (r : Rule) : Text := r.check.name

def messages (r : Rule) (s : Severity) : List Text := Finding.messages s r.findings

structure Subject where
  flat : Flat
  nodes : List Node
  /-- Tells apart the models that nodes may belong to. -/
  stamp : Nat := 0
  source : Json := .null
  locator : Option Locator := none

/-- Handles a view. The second result are the scripts that have been made into functions. -/
def process (r : Rule) (s : Subject) : Session (Rule × List ScriptCheck.Waiting) := do
  match r.check with
  | .scripts c st =>
    let (st, formatted) ← c.process { st with source := s.source } s.stamp s.nodes
    return ({ r with check := .scripts c st, findings := st.findings }, formatted)
  | check =>
    let (check, findings, fixes) ← Session.lift ((check.withLocator s.locator).inspect s.flat s.nodes)
    return ({ check, findings, fixes }, [])

def hasFinish (r : Rule) : Bool :=
  match r.check with
  | .scripts .. | .unused .. => true
  | _ => false

def finalize (r : Rule) : Session (Rule × List ScriptCheck.Waiting) := do
  match r.check with
  | .scripts c st =>
    let (st, formatted) ← c.finalize st
    return ({ r with check := .scripts c st, findings := st.findings }, formatted)
  | .unused _ true => return ({ r with findings := [] }, [])
  | _ => return (r, [])

/-- A rule that has forgotten the last view, as far as unused properties go. -/
def reset (r : Rule) : Rule :=
  match r.check with
  | .unused c _ => { r with check := .unused c false }
  | _ => r

def format (r : Rule) : Except Fault (Option ScriptCheck.Config.Formatted) :=
  match r.check with
  | .scripts c st => c.format st.violations
  | _ => .ok none

/-! ## Configuration -/

def makers : List (Text × (Json → Session Rule)) :=
  let pureRule (create : Json → Except Fault Check) (config : Json) : Session Rule := do
    return { check := ← Session.lift (create config) }
  [("PylintScriptRule", fun config => do
      return { check := .scripts (← ScriptCheck.create config) {} }),
    ("PollingIntervalRule", pureRule fun config => (Polling.create config).map .polling),
    ("NamePatternRule", fun config => do
      let made := NamePattern.create config
      Session.printLines made.remarks
      return { check := .names (← Session.lift made.result) none }),
    ("BadComponentReferenceRule", pureRule fun config => (Traversal.create config).map .traversal),
    ("ComponentReferenceValidationRule",
      pureRule fun config => (ComponentReference.create config).map .references),
    ("UnusedCustomPropertiesRule",
      pureRule fun config => (UnusedProperty.create config).map (.unused · false)),
    ("ExcessiveContextDataRule", pureRule fun config => (ContextData.create config).map .contextData),
    ("ExampleMixedSeverityRule",
      pureRule fun config => (NameStyle.create config).map fun _ => .nameStyle),
    ("ExampleNameLengthRule", pureRule fun config => (NameLength.create config).map .nameLength),
    ("ExampleBindingCountRule",
      pureRule fun config => (BindingCount.create config).map (.bindingCount · []))]

def names : List Text := Fields.keys makers

def create? (name : Text) (config : Json) : Option (Session Rule) :=
  (Fields.get? makers name).map (· config)

def isCreationFault : Fault → Bool
  | .noMember .. | .badKind _ | .badValue _ | .unencodable _ => true
  | _ => false

def ofEntry (name : Text) (entry : Json) : Session (Option Rule) := do
  if Text.startsWith name "_" then return none
  match entry with
  | .obj _ fields =>
    if !((Fields.get? fields (.name "enabled")).getD (.bool true)).isTrue then
      Session.printLine ("Skipping rule " ++ name ++ " (config['enabled'] == False)")
      return none
    match create? name ((Fields.get? fields (.name "kwargs")).getD (.object [])) with
    | none =>
      Session.printLine ("Unknown rule: " ++ name)
      return none
    | some action =>
      match ← Session.attempt action with
      | .ok rule => return some rule
      | .error f =>
        if !isCreationFault f then Session.fail f
        Session.printLine ("Error creating rule " ++ name ++ ": " ++ f.message)
        return none
  | _ => return none

def createAll (config : Json) : Session (List Rule) := do
  match config.fields? with
  | none => Session.fail (.lacks config "items")
  | some entries => entries.filterMapM fun (name, entry) => ofEntry name entry

end Rule

end ViewLint
