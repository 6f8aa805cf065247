import ViewLint.Rule.Basic

/-!
# Length of component names

The rule reports components whose name, as the last step of their path, is too short.
-/

namespace ViewLint.NameLength

structure Config where
  scope : Scope
  minLength : Json

def create (config : Json) : Except Fault Config := do
  let args ← ruleArguments config
  checkArguments "ExampleNameLengthRule" ["min_length", "target_node_types"] args
  let targets := argument args "target_node_types" .null
  return { scope := { targets := if targets.isTrue then .other targets else .kinds [.component]
                      severity := .error }
           minLength := argument args "min_length" (.int 3) }

namespace Config

def purpose (c : Config) : Text :=
  "Component names must be at least " ++ c.minLength.display ++ " characters long"

def inspect (c : Config) (n : Node) : Except Fault (List Finding) := do
  if n.kind != .component then return []
  let name := Text.afterLast "." n.path
  if ← Json.countBelow name.length c.minLength then
    return [⟨.error, n.path ++ ": Component name '" ++ name ++ "' is too short (minimum "
      ++ c.minLength.display ++ " characters)"⟩]
  return []

def check (c : Config) (nodes : List Node) : Except Fault (List Finding) := do
  return (← (← c.scope.select nodes).mapM c.inspect).flatten

end Config

end ViewLint.NameLength
