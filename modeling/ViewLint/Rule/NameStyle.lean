import ViewLint.Rule.Basic
import ViewLint.Text.Case

/-!
# Style of component names

The rule warns of names that look temporary, are very short or say nothing about the component, and
reports names that contradict themselves or hint at unsafe code.
-/

namespace ViewLint.NameStyle

def purpose : Text := "Component validation with mixed severity levels"

def scope : Scope := { targets := .kinds [.component], severity := .error }

/-- The rule has no settings; a configuration may not give any. -/
def create (config : Json) : Except Fault Unit := do
  checkArguments "ExampleMixedSeverityRule" [] (← ruleArguments config)

def contradictions : List (Text × Text) :=
  [("debug", "prod"), ("test", "live"), ("dev", "production"), ("mock", "real"), ("sample", "actual")]

def riskyWords : List Text := ["unsafe", "debug", "admin"]

def shortNames : List Text := ["ok", "no", "go", "id"]

def typeWords : List Text := ["button", "label", "input", "panel", "container", "table", "chart"]

def typeEndings : List Text := ["btn", "lbl", "txt", "img", "icon"]

def remarks (name : Text) : List (Severity × Text) :=
  let small := Text.lower name
  let remark (text : Text) (s : Severity) (p : Bool) : List (Severity × Text) :=
    if p then [(s, text)] else []
  remark "uses temporary naming pattern (consider renaming for production)" .warning
      ((["temp", "test", "tmp"] : List Text).any (Text.startsWith small))
    ++ (match contradictions.find? fun p => Text.holds small p.1 && Text.holds small p.2 with
      | some (a, b) => [(.error, "contains conflicting indicators '" ++ a ++ "' and '" ++ b ++ "'")]
      | none => remark "indicates potentially unsafe or debug functionality" .error
          (riskyWords.any (Text.holds small ·)))
    ++ remark "is very short (consider more descriptive naming)" .warning
      (name.length < 3 && !shortNames.contains small)
    ++ remark "might benefit from a descriptive suffix (e.g., Button, Label, Panel)" .warning
      (5 < name.length && !typeWords.any (Text.holds small ·)
        && !typeEndings.any (Text.endsWith small ·))

def inspect (n : Node) : Except Fault (List Finding) :=
  match n.data with
  | .component (.str name) _ _ =>
    .ok ((remarks name).map fun r =>
      ⟨r.1, n.path ++ ": Component name '" ++ name ++ "' " ++ r.2⟩)
  | .component other _ _ => .error (.lacks other "lower")
  | _ => .ok []

def check (nodes : List Node) : Except Fault (List Finding) := do
  return (← (← scope.select nodes).mapM inspect).flatten

end ViewLint.NameStyle
