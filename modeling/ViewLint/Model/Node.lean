import ViewLint.Fault
import ViewLint.Text.Index

/-!
# Nodes of a view

A node is a component, a binding, a script or a property, with the path at which it stands.
-/

namespace ViewLint

/-! ## Kinds -/

inductive NodeKind where
  | component
  | expressionBinding
  | expressionStructBinding
  | propertyBinding
  | tagBinding
  | queryBinding
  | messageHandler
  | customMethod
  | transform
  | eventHandler
  | property
  deriving DecidableEq

namespace NodeKind

def name : NodeKind → Text
  | component => "component"
  | expressionBinding => "expression_binding"
  | expressionStructBinding => "expression_struct_binding"
  | propertyBinding => "property_binding"
  | tagBinding => "tag_binding"
  | queryBinding => "query_binding"
  | messageHandler => "message_handler"
  | customMethod => "custom_method"
  | transform => "transform"
  | eventHandler => "event_handler"
  | property => "property"

def all : List NodeKind :=
  [component, expressionBinding, expressionStructBinding, propertyBinding, tagBinding, queryBinding,
    messageHandler, customMethod, transform, eventHandler, property]

def ofName? (s : Text) : Option NodeKind := all.find? (·.name == s)

def bindings : List NodeKind :=
  [expressionBinding, expressionStructBinding, propertyBinding, tagBinding, queryBinding]

def scripts : List NodeKind := [messageHandler, customMethod, transform, eventHandler]

end NodeKind

/-! ## Scripts -/

inductive ScriptRole where
  | messageHandler (messageType scope : Json)
  | customMethod (name : Text) (params : List Text)
  | transform (bindingPath : Json)
  | eventHandler (domain : Json) (eventType : Text) (scope : Json)

/-- A script: its text, which a document may hold in another shape, and its role. -/
structure Script where
  text : Json
  role : ScriptRole

def Json.asText : Json → Except Fault Text
  | .str s => .ok s
  | other => .error (.badKind ("expected string or bytes-like object, got '" ++ other.kindName ++ "'"))

/-- The texts of values that have to be texts, as they are joined; `i` is the position of the first. -/
def Json.textsFrom : Nat → List Json → Except Fault (List Text)
  | _, [] => .ok []
  | i, .str s :: rest => do return s :: (← textsFrom (i + 1) rest)
  | i, other :: _ => .error (.badKind
      ("sequence item " ++ natText i ++ ": expected str instance, " ++ other.kindName ++ " found"))

namespace ScriptRole

/-- The role of a custom method. Its name has to be a text, and its parameters a list of texts. -/
def method (name params : Json) : Except Fault ScriptRole := do
  let name ← name.asText
  match params with
  | .arr items => return .customMethod name (← Json.textsFrom 1 items)
  | other => .error (.badKind ("can only concatenate list (not \"" ++ other.kindName ++ "\") to list"))

def header : ScriptRole → Text
  | .messageHandler _ _ => "def onMessageReceived(self, payload):"
  | .customMethod name params =>
    "def " ++ Text.dropIndices name ++ "(" ++ Text.join ", " ("self" :: params) ++ "):"
  | .transform _ => "def transform(self, value):"
  | .eventHandler _ eventType _ => "def " ++ Text.dropIndices eventType ++ "(self, event):"

def kind : ScriptRole → NodeKind
  | .messageHandler _ _ => .messageHandler
  | .customMethod _ _ => .customMethod
  | .transform _ => .transform
  | .eventHandler _ _ _ => .eventHandler

end ScriptRole

namespace Script

def fillBlank (text : Text) : Text := if Text.isBlankText text then "\tpass" else text

def isCodeLine (line : Text) : Bool :=
  !Text.isBlankText line && !Text.startsWith (Text.strip line) "#"

def isIndented (lines : List Text) : Bool :=
  match lines.find? isCodeLine with
  | some line => Text.startsWith line "\t" || Text.startsWith line "    "
  | none => false

/-- The body of the function that a script becomes: an indented script stays as it is, any other
is indented line by line. -/
def body (text : Text) : Text :=
  let lines := Text.splitOn "\n" text
  if isIndented lines then text
  else Text.join "\n" (lines.map fun line => if Text.isBlankText line then "" else "\t" ++ line)

def formattedText (role : ScriptRole) (text : Text) : Text :=
  role.header ++ "\n" ++ body (fillBlank text)

def formatted (s : Script) : Except Fault Text :=
  match s.text with
  | .str text => .ok (formattedText s.role text)
  | other => .error (.lacks other "strip")

def settled (s : Script) : Script :=
  match s.text with
  | .str text => { s with text := .str (fillBlank text) }
  | _ => s

end Script

/-! ## Nodes -/

inductive NodeData where
  | component (name type properties : Json)
  | expressionBinding (expression : Json) (config : List (Text × Json))
  | expressionStructBinding (struct config : List (Text × Json))
  | propertyBinding (target : Json) (config : List (Text × Json))
  | tagBinding (tagPath mode : Json) (references config : List (Text × Json))
  | queryBinding (queryPath : Json) (parameters config : List (Text × Json))
  | script (script : Script)
  | property (name value persistent privateAccess : Json)
  | bare (kind : NodeKind)

structure Node where
  path : Text
  data : NodeData

namespace NodeData

def kind : NodeData → NodeKind
  | .component _ _ _ => .component
  | .expressionBinding _ _ => .expressionBinding
  | .expressionStructBinding _ _ => .expressionStructBinding
  | .propertyBinding _ _ => .propertyBinding
  | .tagBinding _ _ _ _ => .tagBinding
  | .queryBinding _ _ _ => .queryBinding
  | .script s => s.role.kind
  | .property _ _ _ _ => .property
  | .bare kind => kind

/-- The expressions of a tag binding: its path in expression mode, its references in indirect
mode. -/
def tagExpressions (tagPath mode : Json) (references : List (Text × Json)) : List Json :=
  if mode.equals (.str "expression") then [tagPath]
  else if mode.equals (.str "indirect") then references.map (·.2)
  else []

end NodeData

namespace Node

def kind (n : Node) : NodeKind := n.data.kind

def script? (n : Node) : Option Script :=
  match n.data with
  | .script s => some s
  | _ => none

def name? (n : Node) : Option Json :=
  match n.data with
  | .component name _ _ => some name
  | .property name _ _ _ => some name
  | .script ⟨_, .customMethod name _⟩ => some (.str name)
  | _ => none

def isOf (n : Node) (kinds : List NodeKind) : Bool := kinds.isEmpty || kinds.contains n.kind

def settled (n : Node) : Node :=
  match n.data with
  | .script s => { n with data := .script s.settled }
  | _ => n

/-! ## Serialization -/

def sizeOf : Json → Except Fault Nat
  | .str s => .ok s.length
  | .arr items => .ok items.length
  | .obj _ fields => .ok fields.length
  | other => .error (.badKind ("object of type '" ++ other.kindName ++ "' has no len()"))

def preview (length : Nat) (v : Json) : Except Fault Json := do
  if (← sizeOf v) ≤ length then return v
  match v with
  | .str s => return .str (s.take length ++ "...")
  | .arr _ => .error (.badKind "can only concatenate list (not \"str\") to list")
  | _ => .error (.badKind "unhashable type: 'slice'")

def scriptSummary (text : Json) : Except Fault (List (Text × Json)) := do
  return [("script_length", .int (← sizeOf text)), ("script_preview", ← preview 100 text)]

def roleFields : ScriptRole → List (Text × Json)
  | .messageHandler messageType scope => [("message_type", messageType), ("scope", scope)]
  | .customMethod name params => [("name", .str name), ("params", .arr (params.map .str))]
  | .transform bindingPath => [("binding_path", bindingPath)]
  | .eventHandler domain eventType scope =>
    [("event_domain", domain), ("event_type", .str eventType), ("scope", scope)]

def optionalField (key : Text) : Json → List (Text × Json)
  | .null => []
  | v => [(key, v)]

def dataFields : NodeData → Except Fault (List (Text × Json))
  | .component name type properties => do
    return [("name", name), ("type", type), ("properties_count", .int (← sizeOf properties))]
  | .expressionBinding expression config => .ok [("expression", expression), ("config", .object config)]
  | .expressionStructBinding struct config => .ok [("struct", .object struct), ("config", .object config)]
  | .propertyBinding target config => .ok [("target_path", target), ("config", .object config)]
  | .tagBinding tagPath mode references config =>
    .ok [("tag_path", tagPath), ("mode", mode), ("references", .object references),
      ("config", .object config)]
  | .queryBinding queryPath parameters config =>
    .ok [("query_path", queryPath), ("parameters", .object parameters), ("config", .object config)]
  | .script s => (scriptSummary s.text).map (· ++ roleFields s.role)
  | .property name value persistent privateAccess =>
    let known : List (Text × Json) :=
      [("name", name), ("value", value), ("value_type", .str value.kindName)]
    .ok (known ++ optionalField "persistent" persistent
      ++ optionalField "private_access" privateAccess)
  | .bare _ => .ok []

def serializeAt (path : Json) (data : NodeData) : Except Fault Json := do
  let fields ← dataFields data
  return .object (("path", path) :: ("node_type", .str data.kind.name) :: fields)

def serialize (n : Node) : Except Fault Json := serializeAt (.str n.path) n.data

end Node

end ViewLint
