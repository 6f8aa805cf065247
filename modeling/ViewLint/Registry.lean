import ViewLint.Engine.Rule

/-!
# The registry of rules

A registry knows kinds of rules by names. What is to be registered is first made on trial, so that
only kinds get in whose rules can be made without settings.
-/

namespace ViewLint

structure RuleKind where
  name : Text
  home : Text
  /-- Makes a rule without settings, and asks it what it is for. -/
  make : Session (Except Fault Text)

inductive Candidate where
  | value (type : Text)
  | unrelated (name : Text)
  | base
  | kind (k : RuleKind)

structure RuleMetadata where
  className : Text
  home : Text
  purpose : Option Text
  deriving DecidableEq

structure Registry where
  rules : List (Text × RuleKind) := []
  validated : List Text := []
  metadata : List (Text × RuleMetadata) := []

namespace RuleKind

/-! ## The known kinds -/

def package : Text := "ignition_lint.rules"

def builtIn (home name : Text) : RuleKind where
  name
  home := package ++ "." ++ home
  make := match Rule.create? name (.object []) with
    | some create => do return .ok (← create).check.purpose
    | none => Session.fail (.missingKey (.str name))

def unfinished (name methods : Text) : RuleKind where
  name
  home := package ++ ".common"
  make := Session.fail (.badKind ("Can't instantiate abstract class " ++ name ++ " with abstract "
    ++ methods))

def modules : List (Text × List Text) :=
  [("scripts.lint_script", ["PylintScriptRule"]),
    ("performance.polling_interval", ["PollingIntervalRule"]),
    ("naming.name_pattern", ["NamePatternRule"]),
    ("structure.bad_component_reference", ["BadComponentReferenceRule"]),
    ("structure.component_reference_validation", ["ComponentReferenceValidationRule"]),
    ("properties.unused_custom_properties", ["UnusedCustomPropertiesRule"]),
    ("properties.excessive_context_data", ["ExcessiveContextDataRule"]),
    ("examples.example_mixed_severity", ["ExampleMixedSeverityRule"]),
    ("examples.example_rule", ["ExampleBindingCountRule", "ExampleNameLengthRule"])]

def otherModules : List Text := ["common", "registry"]

def packages : List Text :=
  ["accessibility", "examples", "naming", "performance", "properties", "scripts", "security",
    "structure"]

def inModule (home : Text) : List RuleKind :=
  ((Fields.get? modules home).getD []).map (builtIn home)

def all : List RuleKind := modules.flatMap fun (home, names) => names.map (builtIn home)

def script : RuleKind := unfinished "ScriptRule" "methods error_message, process_scripts"

def binding : RuleKind := unfinished "BindingRule" "method error_message"

def ofName? (name : Text) : Option RuleKind := (script :: binding :: all).find? (·.name == name)

end RuleKind

def Candidate.name : Candidate → Except Fault Text
  | .value type => .error (.noMember type "__name__")
  | .unrelated name => .ok name
  | .base => .ok "LintingRule"
  | .kind k => .ok k.name

namespace Registry

/-! ## Registration -/

def has (r : Registry) (name : Text) : Bool := Fields.has r.rules name

def get? (r : Registry) (name : Text) : Option RuleKind := Fields.get? r.rules name

def names (r : Registry) : List Text := Fields.keys r.rules

/-- The kind that a candidate is, unless it is refused. A rule of it is made on trial. -/
def validate (r : Registry) (c : Candidate) (name : Text) : Session RuleKind := do
  match c with
  | .value _ => Session.fail (.badRule ("Rule " ++ name ++ " must be a class"))
  | .unrelated _ => Session.fail (.badRule ("Rule " ++ name ++ " must inherit from LintingRule"))
  | .base => Session.fail (.badRule "Cannot register the base LintingRule class")
  | .kind k =>
    match ← Session.attempt k.make with
    | .error f => Session.fail (.badRule ("Rule " ++ name ++ " failed basic instantiation test: "
        ++ f.message))
    | .ok _ =>
      if r.has name then Session.fail (.badRule ("Rule name " ++ name ++ " is already registered"))
      return k

def describe (k : RuleKind) : Session RuleMetadata := do
  let purpose ← Session.attempt (do Session.lift (← k.make))
  match purpose with
  | .ok text => return ⟨k.name, k.home, some text⟩
  | .error f =>
    if !Rule.isCreationFault f then Session.fail f
    return ⟨k.name, k.home, none⟩

def insert (r : Registry) (name : Text) (k : RuleKind) (m : RuleMetadata) : Registry where
  rules := Fields.insert r.rules name k
  validated := if r.validated.contains name then r.validated else r.validated ++ [name]
  metadata := Fields.insert r.metadata name m

def nameFor (c : Candidate) (name : Option Text) : Except Fault Text :=
  match name with
  | none | some "" => c.name
  | some name => .ok name

def register (r : Registry) (c : Candidate) (name : Option Text) : Session (Text × Registry) := do
  let name ← Session.lift (nameFor c name)
  let k ← r.validate c name
  let m ← describe k
  return (name, r.insert name k m)

/-! ## Discovery -/

def registerAll : Registry → List RuleKind → Session (List Text × Registry)
  | r, [] => return ([], r)
  | r, k :: rest => do
    match ← Session.attempt (r.register (.kind k) none) with
    | .ok (name, r) =>
      let (names, r) ← registerAll r rest
      return (name :: names, r)
    | .error (.badRule text) =>
      Session.printLine ("Warning: Skipped invalid rule " ++ k.name ++ ": " ++ text)
      registerAll r rest
    | .error f => Session.fail f

def discover (r : Registry) : Session (List Text × Registry) := r.registerAll RuleKind.all

def full : Session Registry := do return (← Registry.discover {}).2

def ignoredFiles : List Text := ["__init__.py", "registry.py", "common.py"]

def moduleParts (directory file : Text) : List Text :=
  let steps := (FileName.steps file).drop (FileName.steps directory).length
  Text.splitOn "." (Text.join "." (steps.dropLast ++ [FileName.stem file]))

/-- Why there is no module with a name, if there is none. The name is given by its parts; those
before `done` are known to be a package. -/
def missing? (done : List Text) : List Text → Option Text
  | [] => none
  | part :: rest =>
    let name := Text.join "." (done ++ [part])
    let full := RuleKind.package ++ "." ++ name
    if RuleKind.packages.contains name then missing? (done ++ [part]) rest
    else if Fields.has RuleKind.modules name || RuleKind.otherModules.contains name then
      match rest with
      | [] => none
      | next :: _ => some ("No module named " ++ Text.quote (full ++ "." ++ next) ++ "; "
          ++ Text.quote full ++ " is not a package")
    else some ("No module named " ++ Text.quote full)

def registerFiles (directory : Text) : Registry → List Text → Session (List Text × Registry)
  | r, [] => return ([], r)
  | r, file :: rest => do
    let parts := moduleParts directory file
    match missing? [] parts with
    | some why =>
      Session.printLine ("Warning: Could not import " ++ file ++ ": " ++ why)
      registerFiles directory r rest
    | none =>
      let (names, r) ← r.registerAll (RuleKind.inModule (Text.join "." parts))
      let (more, r) ← registerFiles directory r rest
      return (names ++ more, r)

def searchDepth : Nat := 100

def discoverIn (r : Registry) (directory : Text) : Session (List Text × Registry) := do
  let w ← get
  let files := w.store.globBelow w.cwd "*.py" searchDepth directory
  registerFiles directory r (files.filter fun file => !ignoredFiles.contains (FileName.last file))

end Registry

end ViewLint
