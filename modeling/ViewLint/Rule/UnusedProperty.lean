import ViewLint.Rule.Basic
import ViewLint.Text.Scan

/-!
# Properties that nothing refers to

The rule collects the custom properties and view parameters that a view defines, and everything that
refers to a property: expressions, scripts, bindings of the property itself, and any text of the view
that spells the property out. A property without a reference is reported.

A property is known by its full name: `view.custom.x`, `view.params.x`, or `Name.custom.x` for a
component. A reference may leave the component open: `*.custom.x`.
-/

namespace ViewLint.UnusedProperty

/-! ## Definitions -/

def customStep? (path : Text) : Option Text := do
  let (_, name) ← Text.rcut? ".custom." path
  if name.isEmpty || Text.holds name "." then none else some name

def singleStep? (start path : Text) : Option Text :=
  let rest := path.drop start.length
  if Text.startsWith path start && !Text.holds rest "." then some rest else none

def definition? (path : Text) : Option Text :=
  match singleStep? "custom." path, singleStep? "params." path with
  | some name, _ => some ("view.custom." ++ name)
  | none, some name => some ("view.params." ++ name)
  | none, none =>
    if Text.startsWith path "propConfig." then none
    else (customStep? path).map fun name =>
      Text.afterLast "." (Text.before ".custom." path) ++ ".custom." ++ name

/-! ## References -/

/-- What the references of an expression look like, and how the full name starts. -/
def expressionMarks : List (Text × Text) :=
  [("\x7bview.custom.", "view.custom."), ("\x7bview.params.", "view.params."),
    ("\x7bthis.custom.", "*.custom."), ("\x7bself.view.custom.", "view.custom."),
    ("\x7bself.view.params.", "view.params.")]

def scriptMarks : List (Text × Text) :=
  [("self.view.custom.", "view.custom."), ("self.view.params.", "view.params."),
    ("self.custom.", "*.custom."), ("self.params.", "*.params.")]

def inExpression (text : Text) : List Text :=
  expressionMarks.flatMap fun (mark, start) =>
    (Text.scan (Text.enclosed? mark '\x7d') text).map (start ++ ·)

def inScript (text : Text) : List Text :=
  scriptMarks.flatMap fun (mark, start) =>
    (Text.scan (Text.identAfter? mark) text).map (start ++ ·)

def withoutBinding (path : Text) : Text :=
  let rest := if Text.startsWith path "propConfig." then path.drop 11 else path
  let endings : List Text := [".binding", ".persistent", ".paramDirection"]
  match endings.find? (Text.holds rest) with
  | some ending => Text.before ending rest
  | none => rest

def ownerOf? (bindingPath : Text) : Option Text :=
  let path := withoutBinding bindingPath
  match singleStep? "custom." path, singleStep? "params." path with
  | some name, _ => some ("view.custom." ++ name)
  | none, some name => some ("view.params." ++ name)
  | none, none => do
    let name ← customStep? path
    let component := Text.afterLast "." (Text.beforeLast ".custom." path)
    if component.isEmpty then none else some (component ++ ".custom." ++ name)

def firstIdent? (marker text : Text) : Option Text :=
  (Text.first? (Text.identAfter? marker) text).map fun r => r.1

/-- The component and the property of the first step that `custom` and an identifier follow. -/
def firstCustom? (text : Text) : Option (Text × Text) :=
  (Text.first? (fun s =>
    let component := s.takeWhile (· != .char '.')
    if component.isEmpty then none
    else (Text.identAfter? ".custom." (s.drop component.length)).map fun r =>
      (component, r.1)) text)

def spelled? (spelling : Text) : Option Text :=
  if Text.holds spelling "view.custom." then
    (firstIdent? "view.custom." spelling).map ("view.custom." ++ ·)
  else if Text.holds spelling "view.params." then
    (firstIdent? "view.params." spelling).map ("view.params." ++ ·)
  else if Text.holds spelling ".custom." then
    if Text.startsWith spelling "this.custom." || Text.startsWith spelling "self.custom." then
      (firstIdent? ".custom." spelling).map ("*.custom." ++ ·)
    else (firstCustom? spelling).map fun (component, name) => component ++ ".custom." ++ name
  else none

/-- The full name that a value refers to as a spelling. A value that is no text holds no spelling. -/
def spelledIn? (v : Json) : Except Fault (Option Text) :=
  match v with
  | .str s => .ok (spelled? s)
  | other => do
    let markers : List Text := ["view.custom.", "view.params.", ".custom."]
    if (← markers.mapM fun m => other.holds (.str m)).contains true then
      .error (.badKind ("expected string or bytes-like object, got '" ++ other.kindName ++ "'"))
    return none

def spellings (full : Text) : List Text :=
  if Text.startsWith full "view.custom." || Text.startsWith full "view.params." then
    [full, "self." ++ full, "\x7b" ++ full.drop 12 ++ "\x7d"]
  else match Text.splitOn ".custom." full with
    | component :: name :: _ =>
      [component ++ ".custom." ++ name, "this.custom." ++ name, "self.custom." ++ name]
    | _ => []

def inTexts (flat : Flat) (defined : List Text) : List Text :=
  let wanted := defined.flatMap spellings
  (flat.filterMap (·.2.str?)).flatMap fun text =>
    (wanted.filter (Text.holds text ·)).filterMap spelled?

/-! ## The rule -/

structure Config where
  scope : Scope

def purpose : Text := "Unused custom properties and view parameters detection"

def kinds : List NodeKind :=
  [.property, .component, .expressionBinding, .propertyBinding, .tagBinding, .eventHandler,
    .messageHandler, .customMethod, .transform]

def create (config : Json) : Except Fault Config := do
  let args ← ruleArguments config
  checkArguments "UnusedCustomPropertiesRule" ["severity"] args
  return { scope := { targets := .kinds kinds, severity := severityArgument args } }

structure Survey where
  defined : List (Text × Text) := []
  used : List Text := []

namespace Survey

def refer (s : Survey) (names : List Text) : Survey := { s with used := s.used ++ names }

/-- The references in a value: nothing in an empty one, and only a text can hold any. -/
def referencesOf (find : Text → List Text) (v : Json) : Except Fault (List Text) :=
  match v with
  | .str text => .ok (find text)
  | other =>
    if other.isTrue then .error (.badKind "expected string or bytes-like object") else .ok []

def visit (s : Survey) (n : Node) : Except Fault Survey := do
  match n.data with
  | .property _ _ _ _ =>
    match definition? n.path with
    | some full => return { s with defined := Fields.insert s.defined full n.path }
    | none => return s
  | .expressionBinding v _ | .propertyBinding v _ | .tagBinding v _ _ _ =>
    return (s.refer (← referencesOf inExpression v)).refer (ownerOf? n.path).toList
  | .script script => return s.refer (← referencesOf inScript script.text)
  | _ => return s

def isUsed (s : Survey) (full : Text) : Bool :=
  s.used.contains full
    || (Text.holds full ".custom." && !Text.startsWith full "view."
      && s.used.contains ("*.custom." ++ Text.afterLast ".custom." full))
    || (Text.startsWith full "view.params."
      && s.used.contains ("*.params." ++ Text.afterLast "view.params." full))

def ofNodes (nodes : List Node) : Except Fault Survey := nodes.foldlM visit {}

def addTexts (s : Survey) (flat : Flat) : Survey := s.refer (inTexts flat (Fields.keys s.defined))

def unused (s : Survey) : List (Text × Text) := s.defined.filter fun d => !s.isUsed d.1

end Survey

def message (full path : Text) : Text :=
  let kind := if Text.holds full ".params." then "view parameter" else "custom property"
  path ++ ": " ++ kind ++ " '" ++ Text.afterLast "." full ++ "' is defined but never referenced"

def Config.check (c : Config) (flat : Flat) (nodes : List Node) : Except Fault (List Finding) := do
  let survey := (← Survey.ofNodes (← c.scope.select nodes)).addTexts flat
  return survey.unused.map fun d => ⟨c.scope.severity, message d.1 d.2⟩

end ViewLint.UnusedProperty
