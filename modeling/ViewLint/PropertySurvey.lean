import ViewLint.Run.File

/-!
# Surveys of properties

Surveys show which entries of a flattened view become properties of its model, and why the others do
not.
-/

namespace ViewLint.PropertySurvey

def rule (c : Text) (n : Nat) : Text := Text.repeated n c

def entryLine (path : Text) (value : Json) : Text := "  " ++ path ++ ": " ++ value.display

/-! ## All entries of a view -/

def excerptLength : Nat := 500

/-- The beginning of a document. It is marked as cut when the document is long even on one line. -/
def excerpt (doc : Json) : Text :=
  (doc.render .asciiDocument).take excerptLength
    ++ if excerptLength < (doc.render .line).length then "..." else ""

def sorted (flat : Flat) : Flat := flat.mergeSort fun a b => Text.le a.1 b.1

def countLines (m : Model) : List Text :=
  let filled := m.collections.filter fun (_, nodes) => !nodes.isEmpty
  List.flatten
    [["\n🏗️  Model Summary:"],
      filled.map fun (name, nodes) => "  " ++ name ++ ": " ++ natText nodes.length ++ " nodes",
      ["  TOTAL: " ++ natText (filled.foldl (fun n c => n + c.2.length) 0) ++ " nodes"]]

def nameAndValue (n : Node) : Json × Json :=
  match n.data with
  | .property name value _ _ => (name, value)
  | _ => (.null, .null)

def propertyLines (n : Node) : List Text :=
  let (name, value) := nameAndValue n
  ["  Path: " ++ n.path, "    Name: " ++ name.display, "    Value: " ++ value.display,
    "    Type: <class '" ++ value.kindName ++ "'>", ""]

def detailLines (properties : List Node) : List Text :=
  if properties.isEmpty then ["\n❌ NO Property nodes created"]
  else ("\n🔍 Property Nodes Detail (" ++ natText properties.length ++ " nodes):")
    :: properties.flatMap propertyLines

def otherParts : List Text := ["meta", "binding", "scripts", "events"]

def reasons (components : List Text) (path : Text) : List Text :=
  let parts := otherParts.filter fun part => Text.holds path ("." ++ part ++ ".")
  List.flatten
    [if parts.isEmpty then []
      else ["contains skipped section: [" ++ Text.join ", " (parts.map Text.quote) ++ "]"],
      if Text.endsWith path ".type" then ["ends with .type"] else [],
      if components.any (Text.startsWith path) then [] else ["doesn't belong to any component"]]

def otherLines (components : List Text) (path : Text) (value : Json) : List Text :=
  let why := reasons components path
  let shown : Text := if why.isEmpty then "UNKNOWN - should be investigated!" else Text.join ", " why
  [entryLine path value, "    Reason: " ++ shown]

def restLines (m : Model) (flat : Flat) : List Text :=
  let components := m.components.map (·.path)
  let others := flat.filter fun (path, _) => !m.properties.any (·.path == path)
  "\n🚫 Paths NOT converted to Property nodes:"
    :: others.flatMap fun (path, value) => otherLines components path value

def view (name : Text) (doc : Json) : Session Unit := do
  Session.printLines ["\n📋 " ++ name, rule "-" 40, "Original JSON structure:", excerpt doc]
  let flat ← Session.lift (View.flatten doc)
  Session.printLine ("\n📊 Flattened JSON (" ++ natText flat.length ++ " items):")
  Session.printLines ((sorted flat).map fun (path, value) => entryLine path value)
  let model ← Session.lift (Model.build flat)
  Session.printLines (countLines model ++ detailLines model.properties ++ restLines model (sorted flat))

/-! ## Persistence -/

structure Own where
  custom : Flat
  params : Flat
  config : Flat

def isCustom (path : Text) : Bool :=
  Text.holds path ".custom." && !Text.startsWith path "propConfig."

def Own.ofFlat (flat : Flat) : Own where
  custom := flat.filter fun (path, _) => isCustom path
  params := flat.filter fun (path, _) => !isCustom path && Text.startsWith path "params."
  config := flat.filter fun (path, _) => !isCustom path && Text.startsWith path "propConfig.custom."

def kept (config : Flat) : List (Text × Json) :=
  config.filterMap fun (path, value) =>
    if Text.endsWith path ".persistent" then some (Text.replace ".persistent" "" path, value) else none

def entryPath (path : Text) : Text := Text.replace "propConfig." "" path

def valueText (flat : Flat) (path : Text) : Text :=
  ((Fields.get? flat path).map Json.display).getD "NOT FOUND"

def keptText (flat : Flat) (path : Text) : Text :=
  ((Fields.get? flat ("propConfig." ++ path ++ ".persistent")).getD (.bool true)).display

def flagText (b : Bool) : Text := (Json.bool b).display

def keptLines (flat : Flat) (paths : List Text) : List Text :=
  ("\n✅ Persistent Properties (" ++ natText paths.length ++ "):") :: paths.map fun path =>
    "  " ++ path ++ " → " ++ entryPath path ++ ": " ++ valueText flat (entryPath path)

def passingLines (flat : Flat) (paths : List Text) : List Text :=
  ("\n⏳ Non-Persistent Properties (" ++ natText paths.length ++ "):") :: paths.map fun path =>
    let entry := entryPath path
    let bound := flat.any fun (p, _) => Text.holds p (entry ++ ".binding")
    "  " ++ path ++ " → " ++ entry ++ ": " ++ valueText flat entry
      ++ " (binding: " ++ flagText bound ++ ")"

def customLines (flat custom : Flat) : List Text :=
  ("\n🏷️  Regular Custom Properties (" ++ natText custom.length ++ "):") :: custom.map fun (path, value) =>
    let configured := flat.any fun (p, _) => Text.startsWith p ("propConfig." ++ path)
    entryLine path value ++ " (configured: " ++ flagText configured
      ++ ", persistent: " ++ keptText flat path ++ ")"

def ownNodeLines (flat : Flat) (properties : List Node) : List Text :=
  let own := properties.filter fun n =>
    Text.holds n.path ".custom." || Text.startsWith n.path "params."
  List.append
    ["\n🏗️  Current Model Builder Results:",
      "  Property nodes created: " ++ natText properties.length]
    (own.map fun n => "  " ++ entryLine n.path (nameAndValue n).2
      ++ " (persistent: " ++ keptText flat n.path ++ ")")

def persistence (doc : Json) : Session Unit := do
  Session.printLines ["\n📋 LineDashboard - Persistent vs Non-Persistent Analysis", rule "-" 60]
  let flat ← Session.lift (View.flatten doc)
  let own := Own.ofFlat flat
  let configured := kept own.config
  let pathsWhere (wanted : Bool) : List Text :=
    (configured.filter (·.2.isTrue == wanted)).map (·.1)
  Session.printLines (List.flatten
    [["🔍 Found Properties:", "  Custom properties: " ++ natText own.custom.length,
        "  View parameters: " ++ natText own.params.length,
        "  PropConfig custom: " ++ natText own.config.length,
        "\n📊 PropConfig Custom Properties (with persistence info):"],
      configured.map fun (path, value) => "  " ++ path ++ ": persistent=" ++ value.display,
      keptLines flat (pathsWhere true), passingLines flat (pathsWhere false),
      customLines flat own.custom])
  let model ← Session.lift (Model.build flat)
  Session.printLines (ownNodeLines flat model.properties)

/-! ## Samples -/

def component (name : Text) (rest : List (Text × Json)) : Json :=
  .object (("meta", .object [("name", .str name)]) :: rest)

def withChild (child : Json) : Json :=
  .object [("root", .object [("children", .arr [child]), ("meta", .object [("name", .str "root")])])]

def ownProperties : Json :=
  .object [("custom", .object [("viewCustomProp", .str "custom value")]),
    ("params", .object [("viewParam", .str "param value")]),
    ("props", .object [("viewProp", .str "prop value")]), ("root", component "root" [])]

def childProperties : Json :=
  withChild (component "TestButton" [("type", .str "ia.input.button"),
    ("custom", .object [("componentCustomProp", .str "custom value")]),
    ("props", .object [("text", .str "Button Text")])])

def childBinding : Json :=
  withChild (component "TestLabel" [("type", .str "ia.display.label"),
    ("props", .object [("text", .object [("binding", .object [("type", .str "expression"),
      ("config", .object [("expression", .str "\x7bview.custom.someProp\x7d")])])])])])

def titleLines (title : Text) : List Text := [rule "=" 60, "TEST CASE " ++ title, rule "=" 60]

def testCase (name : Text) (survey : Json → Session Unit) : Session Unit := do
  match ← Session.attempt (do survey (← ViewFile.read ("./tests/cases/" ++ name ++ "/view.json"))) with
  | .ok () => return ()
  | .error f => Session.printLine ("Could not load " ++ name ++ " test file: " ++ f.message)

def samples : Session Unit := do
  Session.printLines (titleLines "1: View-level properties")
  view "View-level properties" ownProperties
  Session.printLines ("" :: titleLines "2: Component-level properties")
  view "Component-level properties" childProperties
  Session.printLines ("" :: titleLines "3: Binding expressions")
  view "Binding expressions" childBinding
  Session.printLines ("" :: titleLines "4: PascalCase test (simple)")
  testCase "PascalCase" (view "PascalCase test file")
  Session.printLines ("" :: titleLines "5: LineDashboard (persistent vs non-persistent)")
  testCase "LineDashboard" persistence

end ViewLint.PropertySurvey
