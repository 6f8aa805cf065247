import ViewLint.Naming.Convention
import ViewLint.Pattern.Parser
import ViewLint.Rule.Basic
import ViewLint.View.Reference

/-!
# Names that follow a convention

The rule checks the names of components, message handlers, custom methods and properties against a
convention or a pattern. Each kind of node may have settings of its own. For a component it can
propose a new name, together with the changes to everything that mentions the old one.
-/

namespace ViewLint.NamePattern

structure Config where
  scope : Scope
  convention : Json := .null
  suggestion : Json := .null
  pattern : Json
  description : Text
  allowNumbers : Bool := true
  minLength : Json := .int 1
  maxLength : Json := .null
  forbidden : Json := .setOf []
  skipped : Json := .setOf [.str "root"]
  abbreviations : List Json := []
  specific : List (NodeKind × Json) := []

namespace Config

def purpose (c : Config) : Text :=
  "Names should follow naming patterns for " ++ match c.scope.targets with
    | .kinds ks => Text.join ", " (ks.map NodeKind.name)
    | .other v => v.display

def setting (c : Config) (kind : NodeKind) (key : Text) (general : Json) : Except Fault Json :=
  match Fields.get? c.specific kind with
  | none => .ok general
  | some (.obj _ fields) => .ok ((Fields.get? fields (.name key)).getD general)
  | some other => .error (.lacks other "get")

def conventionOf? (v : Json) : Except Fault (Option Convention) := do
  match ← v.lookupKey with
  | .str s => return Convention.ofName? s
  | _ => return none

def abbreviationTexts (c : Config) : List Text := c.abbreviations.filterMap Json.str?

/-- The value that decides how a name is written: the convention for suggestions, or else the
convention itself. -/
def writingConvention (c : Config) (kind : NodeKind) : Except Fault Json := do
  let suggestion ← c.setting kind "suggestion_convention" c.suggestion
  if suggestion.isTrue then return suggestion
  c.setting kind "convention" c.convention

def adjustBy (c : Config) (order : List Text) (kind : NodeKind) (name : Json) : Except Fault Json := do
  if c.abbreviations.isEmpty then return name
  let convention ← c.writingConvention kind
  if !convention.isTrue then return name
  let _ ← c.abbreviations.mapM Json.length
  match name with
  | .str s =>
    return .str (((convention.str?.bind Convention.ofName?).map (·.adjust order s)).getD s)
  | other => .error (.lacks other "upper")

def order (c : Config) : List Text := Naming.tryOrder c.abbreviationTexts

def adjust (c : Config) (kind : NodeKind) (name : Json) : Except Fault Json :=
  c.adjustBy c.order kind name

def convert (c : Config) (convention : Convention) (name : Json) : Except Fault Text :=
  match name with
  | .str s => .ok (convention.convert c.abbreviationTexts s)
  | other => .error (.lacks other "strip")

def suggest (c : Config) (kind : NodeKind) (name : Json) : Except Fault (Option Text) := do
  let suggestion ← c.setting kind "suggestion_convention" c.suggestion
  if suggestion.isTrue then
    match suggestion.str?.bind Convention.ofName? with
    | some convention => return some (← c.convert convention name)
    | none => return some "No suggestion available"
  let convention ← c.setting kind "convention" c.convention
  if !convention.isTrue then return none
  (← conventionOf? convention).mapM (c.convert · name)

def suggests (c : Config) (kind : NodeKind) : Except Fault Bool := do
  let suggestion ← c.setting kind "suggestion_convention" c.suggestion
  let convention ← c.setting kind "convention" c.convention
  if suggestion.isTrue then return true
  if !convention.isTrue then return false
  return (← conventionOf? convention).isSome

def matchesPattern (pattern value : Json) : Except Fault Bool :=
  match pattern, value with
  | .str p, .str text => match Pattern.parse p with
    | .ok p => .ok (p.matchStart? text).isSome
    | .error complaint => .error (.badPattern complaint)
  | .str p, other => match Pattern.parse p with
    | .ok _ => .error (.badKind ("expected string or bytes-like object, got '" ++ other.kindName ++ "'"))
    | .error complaint => .error (.badPattern complaint)
  | _, _ => .error (.badKind "first argument must be string or compiled pattern")

def validateForm (c : Config) (order : List Text) (kind : NodeKind) (name : Json) :
    Except Fault (List Text) := do
  let pattern ← c.setting kind "pattern" c.pattern
  let description ← c.setting kind "pattern_description" (.str c.description)
  if ← matchesPattern pattern (← c.adjustBy order kind name) then return []
  let complaint :=
    "Name '" ++ name.display ++ "' doesn't follow " ++ description.display ++ " for " ++ kind.name
  if !(← c.suggests kind) then return [complaint]
  match ← c.suggest kind name with
  | some suggestion =>
    if suggestion.isEmpty then return [complaint]
    else return [complaint ++ " (suggestion: '" ++ suggestion ++ "')"]
  | none => return [complaint]

/-- What is wrong with a name, if the abbreviations are tried in an order: it is forbidden, too short,
too long, or of the wrong form. Names that are to be skipped are right. -/
def validateBy (c : Config) (order : List Text) (kind : NodeKind) (name : Json) :
    Except Fault (List Text) := do
  let about (text : Text) : List Text :=
    ["Name '" ++ name.display ++ "' " ++ text ++ " for " ++ kind.name]
  if ← (← c.setting kind "skip_names" c.skipped).holds name then return []
  if ← (← c.setting kind "forbidden_names" c.forbidden).holds name then return about "is forbidden"
  let shortest ← c.setting kind "min_length" c.minLength
  let longest ← c.setting kind "max_length" c.maxLength
  let length ← name.length
  if ← Json.countBelow length shortest then
    return about ("is too short (minimum " ++ shortest.display ++ " characters)")
  if longest.isTrue then
    if ← Json.countAbove length longest then
      return about ("is too long (maximum " ++ longest.display ++ " characters)")
  c.validateForm order kind name

def validate (c : Config) (kind : NodeKind) (name : Json) : Except Fault (List Text) :=
  c.validateBy c.order kind name

end Config

/-! ## Nodes -/

def nameOf (n : Node) : Json :=
  match n.data with
  | .component name _ _ => name
  | .property name _ _ _ => name
  | .script ⟨_, .messageHandler messageType _⟩ => messageType
  | .script ⟨_, .customMethod name _⟩ => .str name
  | .bare kind =>
    if [NodeKind.component, .messageHandler, .customMethod, .property].contains kind then .str ""
    else .null
  | _ => .null

/-- Whether a property has a name that the user does not choose: styles, positions and the data of
drawings. -/
def isPresetProperty (n : Node) : Bool :=
  n.kind == .property &&
    (([".style.", ".elementStyle.", ".textStyle.", ".instanceStyle.", ".position.",
        ".props.aspectRatio"] : List Text).any (Text.holds n.path)
      || (Text.holds n.path ".props.elements" && Text.endsWith n.path ".d"))

structure FixContext where
  flat : Flat
  locator : Locator

namespace Config

/-- The fix that renames a component. It is safe if nothing else mentions the name. -/
def componentFix (c : Config) (context : FixContext) (n : Node) (name : Json) (violation : Text) :
    Except Fault (Option Fix) := do
  match ← c.suggest n.kind name with
  | none => return none
  | some new =>
    if new.isEmpty || name.equals (.str new) then return none
    match context.locator.namePlace? (.str n.path) with
    | none => return none
    | some place =>
      let description := "Rename component '" ++ name.display ++ "' to '" ++ new ++ "'"
      let rename : Operation := ⟨place, .set name (.str new), description⟩
      let refs ← Reference.find context.flat context.locator name
      let own : List Text := if Reference.asksOwnName context.flat n.path then
        ["component uses 'this.meta.name' binding"] else []
      let others : List Text := if refs.isEmpty then []
        else ["updates " ++ natText refs.length ++ " reference(s)"]
      let notes := own ++ others
      return some
        { rule := .str "NamePatternRule"
          violation
          description
          operations := rename :: Reference.renameOperations name (.str new) refs
          safe := notes.isEmpty
          notes := if notes.isEmpty then .null else .str (Text.join "; " notes) }

def inspect (c : Config) (context : Option FixContext) (n : Node) :
    Except Fault (List Finding × List Fix) := do
  let checked := [NodeKind.component, .messageHandler, .customMethod, .property].contains n.kind
  if !checked || isPresetProperty n then return ([], [])
  let name := nameOf n
  if !name.isTrue then return ([], [])
  let severity ← c.setting n.kind "severity" (.str c.scope.severity.name)
  let messages := (← c.validate n.kind name).map fun text => n.path ++ ": " ++ text
  let findings := messages.map fun m => ⟨(Severity.ofJson? severity).getD c.scope.severity, m⟩
  match context with
  | some context =>
    if n.kind == .component then
      let fixes ← messages.filterMapM fun m => c.componentFix context n name m
      return (findings, fixes)
    else return (findings, [])
  | none => return (findings, [])

def check (c : Config) (context : Option FixContext) (nodes : List Node) :
    Except Fault (List Finding × List Fix) := do
  let results ← (← c.scope.select nodes).mapM (c.inspect context)
  return (results.flatMap (·.1), results.flatMap (·.2))

end Config

/-! ## Configuration -/

def kindList : Text := (Json.arr (NodeKind.all.map fun k => .str k.name)).quoted

def targetKinds (v : Json) : List NodeKind × List Text :=
  let named : List Json := match v with
    | .str s => [.str s]
    | .arr items => items
    | _ => []
  let known := named.filterMap fun n => n.str?.bind NodeKind.ofName?
  let unknown := named.filter fun n => (n.str?.bind NodeKind.ofName?).isNone
  (known.eraseDups, unknown.map fun n =>
    "Warning: Unknown node type '" ++ n.display ++ "'. Available types: " ++ kindList)

/-- The targets of the rule: the configured ones, else the kinds with settings of their own, else
components. -/
def targetsOf (target : Option Json) (specific : List NodeKind) : Targets :=
  match target with
  | some (.null) | none => .kinds (if specific.isEmpty then [.component] else specific)
  | some v =>
    match (targetKinds v).1 with
    | [] => if v.isTrue then .other v else .kinds [.component]
    | known => .kinds known

def specificSettings (v : Json) : Except Fault (List (NodeKind × Json) × List Text) :=
  match v.fields? with
  | none => .error (.lacks v "items")
  | some fields =>
    let known := fields.filterMap fun (k, s) => (NodeKind.ofName? k).map (·, s)
    let unknown := fields.filter fun (k, _) => (NodeKind.ofName? k).isNone
    .ok (known, unknown.map fun (k, _) =>
      "Warning: Unknown node type '" ++ k ++ "' in node_type_specific_rules")

def fillPattern (allowNumbers : Bool) (settings : Json) : Except Fault Json := do
  if !(← settings.holds (.str "convention")) then return settings
  if ← settings.holds (.str "pattern") then return settings
  match settings with
  | .obj kind fields =>
    let convention := (Fields.get? fields (.name "convention")).getD .null
    match ← Config.conventionOf? convention with
    | none => return settings
    | some c =>
      let numbers := ((Fields.get? fields (.name "allow_numbers")).map Json.isTrue).getD allowNumbers
      let fields := Fields.insert fields (.name "pattern") (.str (c.patternWith numbers))
      if Fields.has fields (.name "pattern_description") then return .obj kind fields
      return .obj kind (Fields.insert fields (.name "pattern_description") (.str c.description))
  | .arr _ => .error (.badKind "list indices must be integers or slices, not str")
  | _ => .error (.badKind "string indices must be integers, not 'str'")

def generalPattern (custom convention : Json) (allowNumbers : Bool) :
    Except Fault (Json × Text × List Text) := do
  if custom.isTrue then return (custom, "custom pattern: " ++ custom.display, [])
  let usual := Convention.pascal
  if !convention.isTrue then return (.str usual.pattern, usual.description, [])
  match ← Config.conventionOf? convention with
  | some c => return (.str (c.patternWith allowNumbers), c.description, [])
  | none =>
    return (.str usual.pattern, usual.description,
      ["Warning: Unknown convention '" ++ convention.display ++ "', using PascalCase as default"])

def nameSet (v : Json) (fallback : List Json) : Except Fault (List Json) :=
  match v with
  | .null => .ok fallback
  | v => v.elements.map fun elements => if elements.isEmpty then fallback else elements

def generalSettings (args : List (Text × Json)) : Except Fault (Config × List Text) := do
  let get := argument args
  let settings := get "config" .null
  if settings.isTrue then .error (.lacks settings "severity")
  if !(settings matches .null) then .error (.lacks settings "auto_detect_abbreviations")
  let forbidden ← nameSet (get "forbidden_names" .null) []
  let skipped ← nameSet (get "skip_names" .null) [.str "root"]
  let allowed ← nameSet (get "allowed_abbreviations" .null) []
  let given := get "severity" (.str "warning")
  match Severity.ofJson? given with
  | none =>
    .error (.badValue ("severity must be 'warning' or 'error', got '" ++ given.display ++ "'"))
  | some severity =>
    let numbers := (get "allow_numbers" (.bool true)).isTrue
    let common := if (get "auto_detect_abbreviations" (.bool true)).isTrue then
      Naming.commonAbbreviations.map Json.str else []
    let convention := get "convention" .null
    let (pattern, description, remarks) ←
      generalPattern (get "custom_pattern" .null) convention numbers
    return ({ scope := { targets := .kinds [], severity }, convention
              suggestion := get "suggestion_convention" .null, pattern, description
              allowNumbers := numbers, minLength := get "min_length" (.int 1)
              maxLength := get "max_length" .null, forbidden := .setOf forbidden
              skipped := .setOf skipped, abbreviations := allowed ++ common }, remarks)

def build (args : List (Text × Json)) (specific : List (NodeKind × Json)) : Remarked Config :=
  match generalSettings args with
  | .error e => ⟨[], .error e⟩
  | .ok (c, remarks) => ⟨remarks, do
      let filled ← specific.mapM fun (k, s) => do return (k, ← fillPattern c.allowNumbers s)
      let targets := targetsOf (Fields.get? args "target_node_types") (filled.map (·.1))
      return { c with scope := { c.scope with targets }, specific := filled }⟩

def create (config : Json) : Remarked Config :=
  match ruleArguments config with
  | .error e => ⟨[], .error e⟩
  | .ok args =>
    let targetRemarks := match Fields.get? args "target_node_types" with
      | some v => (targetKinds v).2
      | none => []
    let specific := match Fields.get? args "node_type_specific_rules" with
      | some v => specificSettings v
      | none => .ok ([], [])
    match specific with
    | .error e => ⟨targetRemarks, .error e⟩
    | .ok (specific, specificRemarks) =>
      let built := build args specific
      { built with remarks := targetRemarks ++ specificRemarks ++ built.remarks }

end ViewLint.NamePattern
