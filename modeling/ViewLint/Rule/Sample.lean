import ViewLint.Rule.Basic

/-!
# Sample rules

The smallest rules that can be built on a scope: one that looks at scripts, and one that looks at
bindings. They show what a scope selects.
-/

namespace ViewLint.Sample

def scriptLengths (scope : Scope) (nodes : List Node) : Except Fault (List Finding) := do
  (Scope.scripts (← scope.select nodes)).mapM fun (path, s) => do
    let length ← s.text.length
    match s.text with
    | .str text =>
      let severity := if Text.startsWith text "\t" then Severity.warning else scope.severity
      return ⟨severity, path ++ ": " ++ natText length⟩
    | other => .error (.lacks other "startswith")

def bindingKinds (scope : Scope) (nodes : List Node) : Except Fault (List Finding) := do
  return (← scope.select nodes).filterMap fun n =>
    match n.kind with
    | .expressionStructBinding | .queryBinding => some ⟨scope.severity, "generic " ++ n.path⟩
    | .tagBinding => some ⟨.warning, "tag " ++ n.path⟩
    | _ => none

end ViewLint.Sample
