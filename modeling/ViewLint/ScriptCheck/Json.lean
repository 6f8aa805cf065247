import ViewLint.Model.Reader
import ViewLint.ScriptCheck.Basic

/-!
# Script checks as JSON

The talk with the script checker, and what has been found.
-/

namespace ViewLint

/-- What the script checker will do, as a JSON value describes it: print a text, or fail. -/
def CheckerReply.ofJson : Json → CheckerReply
  | .str text => .output text
  | v =>
    if v.text "raise" == "ImportError" then .absent (v.text "message") else .failed (v.text "message")

def CheckerCall.toJson (c : CheckerCall) : Json :=
  .object [("args", .texts c.args), ("text", .str (Text.normalizeBreaks c.text))]

/-- The scripts that pairs of a key and a node describe. The last node of a key counts. -/
def Script.listOfJson (v : Json) : Except Fault (List (Text × Script)) := do
  let pairs ← (v.items?.getD []).mapM fun
    | .arr [key, node] => do
      match key, (← Node.ofJson node).script? with
      | .str key, some script => .ok (key, script)
      | _, some _ => .error (.badKind ("argument of type '" ++ key.kindName ++ "' is not iterable"))
      | _, none => .error (.noMember "node" "script")
    | other => .error (.badKind ("no pair: '" ++ other.kindName ++ "'"))
  return Fields.ofPairs pairs

namespace ScriptCheck

def Owners.ofJson (v : Json) : Except Fault (Owners × Bool) := do
  let pairs ← (v.items?.getD []).mapM fun
    | .arr [line, key] => do return (← line.lookupKey, key.display)
    | other => .error (.badKind ("no pair: '" ++ other.kindName ++ "'"))
  return (Fields.ofPairs (pairs.filterMap fun (line, key) => line.int?.map (·, key)),
    pairs.all (·.1.int?.isSome))

/-- A violation as JSON. The place for a severity of its own stays empty. -/
def Violation.toJson (v : Violation) : Json :=
  .arr [.str [v.category], .str v.code, .str v.message, .str v.key, .int v.line, .str ""]

def Config.Group.toJson (g : Config.Group) : Json :=
  .object [("name", .str g.name), ("severity", g.severity), ("violations", .texts g.messages)]

def Config.Formatted.toJson : Option Config.Formatted → Json
  | none => .null
  | some f => .object [("warnings", .optional f.warnings), ("errors", .optional f.errors)]

end ScriptCheck

end ViewLint
