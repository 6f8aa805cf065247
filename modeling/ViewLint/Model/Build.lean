import ViewLint.Model.Node
import ViewLint.View.Flatten

/-!
# The model of a view

The model lists the nodes of a flattened view: components, bindings, scripts and properties, each in
the order in which they are met.
-/

namespace ViewLint

namespace Flat

/-! ## Lookups -/

def valueAt (flat : Flat) (path key : Text) (fallback : Json) : Json :=
  (Fields.get? flat (path ++ "." ++ key)).getD fallback

def below (flat : Flat) (start : Text) : List (Text × Json) :=
  flat.filterMap fun (path, v) =>
    if Text.startsWith path start then some (path.drop start.length, v) else none

def textsBelow (flat : Flat) (start : Text) : List (Text × Json) :=
  (flat.below start).filter fun
    | (_, .str _) => true
    | _ => false

def configStart (bindingPath : Text) : Text := bindingPath ++ ".binding.config."

/-- The configuration of a binding, without the entries below one key and without paths that end in
certain words. -/
def configWithout (flat : Flat) (bindingPath key : Text) (endings : List Text) :
    List (Text × Json) :=
  let kept := flat.filter fun entry => !endings.any (Text.endsWith entry.1 ·)
  (below kept (configStart bindingPath)).filter fun entry => !Text.startsWith entry.1 key

/-! ## Components -/

def components (flat : Flat) : List Node :=
  flat.filterMap fun (path, name) =>
    if Text.endsWith path ".meta.name" then
      let here := Text.beforeLast ".meta.name" path
      some ⟨here, .component name (flat.valueAt here "type" (.str "unknown")) (.object [])⟩
    else none

/-! ## Bindings -/

def tagReferences (flat : Flat) (path : Text) : List (Text × Json) :=
  flat.textsBelow (configStart path ++ "references.")

def tagConfig (flat : Flat) (path : Text) : List (Text × Json) :=
  flat.configWithout path "references." ["tagPath", "mode"]

def structExpressions (flat : Flat) (path : Text) : List (Text × Json) :=
  flat.textsBelow (configStart path ++ "struct.")

def structConfig (flat : Flat) (path : Text) : List (Text × Json) :=
  flat.configWithout path "struct." []

def queryParameters (flat : Flat) (path : Text) : List (Text × Json) :=
  flat.textsBelow (configStart path ++ "parameters.")

def queryConfig (flat : Flat) (path : Text) : List (Text × Json) :=
  flat.configWithout path "parameters." ["queryPath"]

def configValue (flat : Flat) (path key fallback : Text) : Json :=
  flat.valueAt path ("binding.config." ++ key) (.str fallback)

def bindingAt? (flat : Flat) (path : Text) (type : Json) : Option Node :=
  let is (name : Text) : Bool := type.equals (.str name)
  if is "expression" || is "expr" then
    some ⟨path, .expressionBinding (flat.configValue path "expression" "unknown") []⟩
  else if is "expr-struct" then
    some ⟨path, .expressionStructBinding (flat.structExpressions path) (flat.structConfig path)⟩
  else if is "property" then
    some ⟨path, .propertyBinding (flat.configValue path "path" "unknown") []⟩
  else if is "tag" then
    some ⟨path, .tagBinding (flat.configValue path "tagPath" "unknown")
      (flat.configValue path "mode" "direct") (flat.tagReferences path) (flat.tagConfig path)⟩
  else if is "query" then
    some ⟨path, .queryBinding (flat.configValue path "queryPath" "unknown")
      (flat.queryParameters path) (flat.queryConfig path)⟩
  else none

def transformsOf (flat : Flat) (bindingPath type key : Text) : List (Text × Json) :=
  let bases := flat.filterMap fun (path, v) =>
    match v with
    | .str t =>
      if Text.startsWith path (bindingPath ++ ".transforms") && Text.endsWith path ".type"
          && t == type then
        some (Text.beforeLast ".type" path)
      else none
    | _ => none
  bases.filterMap fun base =>
    (Fields.get? flat (base ++ "." ++ key)).map fun v => (base, v)

def bindingTypes (flat : Flat) : List (Text × Json) :=
  flat.foldl (fun seen (path, type) =>
    if Text.holds path ".binding.type" then
      let here := Text.beforeLast ".binding.type" path
      if Fields.has seen here then seen else seen ++ [(here, type)]
    else seen) []

def scriptTransforms (flat : Flat) (path : Text) : List Node :=
  (flat.transformsOf (path ++ ".binding") "script" "code").map fun (base, text) =>
    ⟨base, .script ⟨text, .transform (.str path)⟩⟩

def expressionTransforms (flat : Flat) (path : Text) : List Node :=
  (flat.transformsOf (path ++ ".binding") "expression" "expression").map fun (base, expression) =>
    ⟨base, .expressionBinding expression []⟩

def bindings (flat : Flat) : List Node :=
  flat.bindingTypes.flatMap fun (path, type) =>
    (flat.bindingAt? path type).toList ++ flat.expressionTransforms path

def transformScripts (flat : Flat) : List Node :=
  flat.bindingTypes.flatMap fun (path, _) => flat.scriptTransforms path

/-! ## Scripts -/

def messageHandlers (flat : Flat) : List Node :=
  flat.filterMap fun (path, messageType) =>
    if Text.holds path ".scripts.messageHandlers" && Text.endsWith path ".messageType" then
      let here := Text.beforeLast ".messageType" path
      let scope (key : Text) : Json := flat.valueAt here key (.bool false)
      let scopes := Json.object [("page", scope "pageScope"), ("session", scope "sessionScope"),
        ("view", scope "viewScope")]
      some ⟨here, .script ⟨flat.valueAt here "script" (.str ""), .messageHandler messageType scopes⟩⟩
    else none

structure MethodParts where
  path : Text
  name : Json := Json.str "unknown_method"
  params : List Json := []
  text : Json := Json.str ""

def setPadded (xs : List Json) (index : Nat) (v : Json) : List Json :=
  (xs ++ List.replicate (index + 1 - xs.length) (Json.str "")).set index v

def readIndex (digits : Text) : Except Fault Nat :=
  if Json.digitLimit < digits.length then .error (.badValue (Json.digitLimitMessage digits.length))
  else .ok (Text.digitsValue digits)

def MethodParts.learn (m : MethodParts) (path : Text) (v : Json) : Except Fault MethodParts :=
  if Text.endsWith path ".name" then .ok { m with name := v }
  else if Text.endsWith path ".script" then .ok { m with text := v }
  else if Text.holds path "params" then
    match Text.indexAfter? "params" path with
    | some digits => (readIndex digits).map fun index =>
        { m with params := setPadded m.params index v }
    | none => .ok m
  else .ok m

def methodParts (flat : Flat) : Except Fault (List (Text × MethodParts)) :=
  flat.foldlM (fun (seen : List (Text × MethodParts)) (path, v) =>
    match Text.indexAfter? ".scripts.customMethods" path with
    | none => .ok seen
    | some digits => do
      let owner := Text.before ".scripts.customMethods" path
      let index := natText (← readIndex digits)
      let key := owner ++ ".customMethod_" ++ index
      let known := (Fields.get? seen key).getD
        { path := owner ++ ".scripts.customMethods[" ++ index ++ "]" }
      return Fields.insert seen key (← known.learn path v)) []

def MethodParts.toNode (m : MethodParts) : Except Fault Node := do
  return ⟨m.path, .script ⟨m.text, ← ScriptRole.method m.name (.arr m.params)⟩⟩

def customMethods (flat : Flat) : Except Fault (List Node) := do
  (← flat.methodParts).mapM fun (_, parts) => parts.toNode

def eventOf? (path : Text) : Option (Text × Text) :=
  match (Text.splitOn "." path).reverse with
  | type :: domain :: step :: _ :: _ =>
    if step != "events" || type.isEmpty || domain.isEmpty then none else some (domain, type)
  | _ => none

/-- The type of the first event on a path: the second step after `events`. -/
def eventTypeIn (path : Text) : Text :=
  go (Text.splitOn "." path)
where
  go : List Text → Text
    | [] => "unknown"
    | step :: rest => match rest with
      | _ :: type :: _ => if step == "events" then type else go rest
      | _ => go rest

def eventHandlers (flat : Flat) : List Node :=
  flat.filterMap fun (path, text) =>
    if Text.holds path ".events." then
      let here :=
        if Text.holds path ".config.script" then some (Text.before ".config.script" path)
        else if Text.endsWith path ".script" then some (Text.before ".script" path)
        else none
      here.bind fun here => (eventOf? here).map fun (domain, type) =>
        ⟨here, .script ⟨text, .eventHandler (.str domain) type (flat.valueAt here "scope" (.str "L"))⟩⟩
    else none

/-! ## Properties -/

def persistence (flat : Flat) (path : Text) : Json :=
  (Fields.get? flat ("propConfig." ++ path ++ ".persistent")).getD .null

/-- Whether a property exists from the start; it does unless the configuration denies it. -/
def persistenceOrTrue (flat : Flat) (path : Text) : Json :=
  match flat.persistence path with
  | .null => .bool true
  | v => v

def privateAccess (flat : Flat) (path : Text) : Json :=
  match Fields.get? flat ("propConfig." ++ path ++ ".access") with
  | some (.str mode) => .bool (mode == "PRIVATE")
  | some .null => .null
  | none => .null
  | some _ => .bool false

def propertyName (path : Text) : Text := Text.dropLastIndex (Text.afterLast "." path)

def isReserved (path : Text) : Bool :=
  ([".meta.", ".binding.", ".scripts.", ".events."] : List Text).any (Text.holds path)
    || Text.endsWith path ".type" || Text.startsWith path "propConfig."

def isViewProperty (path : Text) : Bool :=
  Text.startsWith path "custom." || Text.startsWith path "params."

def isProperty (flat : Flat) (owners : List Text) (path : Text) : Bool :=
  !isReserved path &&
    if isViewProperty path then (flat.persistenceOrTrue path).isTrue
    else (owners.any fun owner => !owner.isEmpty && Text.startsWith path owner)
      && (!Text.holds path ".custom." || (flat.persistenceOrTrue path).isTrue)

def properties (flat : Flat) (owners : List Text) : List Node :=
  (flat.foldl (fun (seen : List (Text × Node)) (path, v) =>
    let base := Text.dropIndices path
    if flat.isProperty owners path && !Fields.has seen base then
      (base, ⟨base, .property (.str (propertyName path)) v (flat.persistence path)
        (flat.privateAccess path)⟩) :: seen
    else seen) []).reverse.map (·.2)

end Flat

/-! ## The model -/

structure Model where
  components : List Node := []
  bindings : List Node := []
  scripts : List Node := []
  properties : List Node := []

namespace Model

def build (flat : Flat) : Except Fault Model := do
  let components := flat.components
  let methods ← flat.customMethods
  return {
    components
    bindings := flat.bindings
    scripts := flat.transformScripts ++ flat.messageHandlers ++ methods ++ flat.eventHandlers
    properties := flat.properties (components.map (·.path)) }

def ofKind (nodes : List Node) (kind : NodeKind) : List Node := nodes.filter (·.kind == kind)

/-- The nodes by collection: bindings and scripts stand in a common one and in one of their kind. -/
def collections (m : Model) : List (Text × List Node) :=
  [("components", m.components), ("bindings", m.bindings), ("scripts", m.scripts),
    ("event_handlers", ofKind m.scripts .eventHandler),
    ("message_handlers", ofKind m.scripts .messageHandler),
    ("custom_methods", ofKind m.scripts .customMethod),
    ("expression_bindings", ofKind m.bindings .expressionBinding),
    ("expression_struct_bindings", ofKind m.bindings .expressionStructBinding),
    ("property_bindings", ofKind m.bindings .propertyBinding),
    ("tag_bindings", ofKind m.bindings .tagBinding),
    ("query_bindings", ofKind m.bindings .queryBinding),
    ("script_transforms", ofKind m.scripts .transform),
    ("properties", m.properties)]

def offeredKinds : List NodeKind :=
  [.component, .messageHandler, .customMethod, .expressionBinding, .expressionStructBinding,
    .propertyBinding, .tagBinding, .queryBinding, .transform, .eventHandler, .property]

def nodesOf (m : Model) : NodeKind → List Node
  | .component => m.components
  | .property => m.properties
  | kind => if NodeKind.scripts.contains kind then ofKind m.scripts kind else ofKind m.bindings kind

def offered (m : Model) : List Node := offeredKinds.flatMap m.nodesOf

/-- The nodes with the scripts at some paths settled; of several scripts at a path the last one. -/
def settleLast : List Node → List Text → List Node × List Text
  | [], paths => ([], paths)
  | n :: rest, paths =>
    let (rest, paths) := settleLast rest paths
    if paths.contains n.path then (n.settled :: rest, paths.erase n.path) else (n :: rest, paths)

def settle (m : Model) (paths : List Text) : Model :=
  { m with scripts := (settleLast m.scripts paths).1 }

def allNodes (m : Model) : List Node := m.collections.flatMap (·.2)

def serialize (m : Model) : Except Fault (List (Text × List Json)) :=
  m.collections.mapM fun (name, nodes) => do return (name, ← nodes.mapM Node.serialize)

end Model

end ViewLint
