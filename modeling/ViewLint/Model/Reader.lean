import ViewLint.Json.Access
import ViewLint.Model.Build

/-!
# Nodes from descriptions

A description is a JSON object that names the kind of a node, its path and its parts.
-/

namespace ViewLint

def NodeKind.ofJson (v : Json) : Except Fault NodeKind :=
  match v.str?.bind NodeKind.ofName? with
  | some kind => .ok kind
  | none => .error (.badValue (v.quoted ++ " is not a valid NodeType"))

namespace Node

def partsOf : NodeKind → List Text
  | .component => ["name", "type_name", "properties"]
  | .expressionBinding => ["expression", "config"]
  | .expressionStructBinding => ["struct", "config"]
  | .propertyBinding => ["target_path", "config"]
  | .tagBinding => ["tag_path", "mode", "references", "config"]
  | .queryBinding => ["query_path", "parameters", "config"]
  | .messageHandler => ["script", "message_type", "scope"]
  | .customMethod => ["name", "script", "params"]
  | .transform => ["script", "binding_path"]
  | .eventHandler => ["event_domain", "event_type", "script", "scope"]
  | .property => ["name", "value", "persistent", "private_access"]

def part (v : Json) (key : Text) : Except Fault Json :=
  match v.get? key with
  | some part => .ok part
  | none => .error (.badKind ("missing argument: '" ++ key ++ "'"))

def partOrEmpty (v : Json) (key : Text) : Json :=
  if (v.member key).isTrue then v.member key else .object []

def fieldsOf (v : Json) (key : Text) : Except Fault (List (Text × Json)) := do
  return (← part v key).fields

def dataOf (kind : NodeKind) (v : Json) : Except Fault NodeData := do
  let config := (v.member "config").fields
  match kind with
  | .component =>
    return .component (← part v "name") (v.member "type_name") (partOrEmpty v "properties")
  | .expressionBinding => return .expressionBinding (← part v "expression") config
  | .expressionStructBinding => return .expressionStructBinding (← fieldsOf v "struct") config
  | .propertyBinding => return .propertyBinding (← part v "target_path") config
  | .tagBinding =>
    return .tagBinding (← part v "tag_path") ((v.get? "mode").getD (.str "direct"))
      (v.member "references").fields config
  | .queryBinding =>
    return .queryBinding (← part v "query_path") (← fieldsOf v "parameters") config
  | .messageHandler =>
    return .script ⟨← part v "script",
      .messageHandler (← part v "message_type") (partOrEmpty v "scope")⟩
  | .customMethod =>
    let text ← part v "script"
    let params := if (v.member "params").isTrue then v.member "params" else .arr []
    return .script ⟨text, ← ScriptRole.method (← part v "name") params⟩
  | .transform => return .script ⟨← part v "script", .transform (v.member "binding_path")⟩
  | .eventHandler =>
    let text ← part v "script"
    let type ← Json.asText (← part v "event_type")
    return .script ⟨text, .eventHandler (← part v "event_domain") type (v.member "scope")⟩
  | .property =>
    return .property (← part v "name") (← part v "value") (v.member "persistent")
      (v.member "private_access")

def checkParts (v : Json) (parts : List Text) : Except Fault Unit := do
  let known : List Text := ["kind", "path"]
  match v.fields.find? fun f => !(known.contains f.1 || parts.contains f.1) with
  | some (key, _) => .error (.badKind ("unexpected argument: '" ++ key ++ "'"))
  | none =>
    let _ ← part v "path"
    return ()

def ofJson (v : Json) : Except Fault Node := do
  let path := (v.member "path").display
  let kind := v.text "kind"
  if kind == "view_node" then
    checkParts v ["node_type"]
    return ⟨path, .bare (← NodeKind.ofJson (← part v "node_type"))⟩
  match NodeKind.ofName? kind with
  | none => .error (.missingKey (v.member "kind"))
  | some kind =>
    checkParts v (partsOf kind)
    return ⟨path, ← dataOf kind v⟩

/-- Refuses a description in which a mapping is something else. Only a mapping that may be left out
may be empty in any way. -/
def checkMappings (v : Json) : Except Fault Unit :=
  let mappings : List Text := ["struct", "parameters", "config", "references"]
  mappings.forM fun key =>
    match v.get? key with
    | some (.obj _ _) => .ok ()
    | some other =>
      if (key == "config" || key == "references") && !other.isTrue then .ok ()
      else .error (.lacks other "items")
    | none => .ok ()

end Node

end ViewLint
