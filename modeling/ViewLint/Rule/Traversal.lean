import ViewLint.Rule.Basic
import ViewLint.Text.Case

/-!
# Traversal of the component tree

Scripts and expressions that walk from component to component depend on the layout of a view. The
rule looks for the texts that give such a walk away.
-/

namespace ViewLint.Traversal

def usualTexts : List Text :=
  [".getSibling(", ".getParent(", ".getChild(", ".getChildren(", "self.parent.", "self.children.",
    "self.parent)", "self.children)", "self.parent,", "self.children,", "self.parent\n",
    "self.children\n", "self.parent\r", "self.children\r", "../", "./"]

structure Config where
  scope : Scope
  texts : Json
  caseSensitive : Bool

def purpose : Text :=
  "Avoid object traversal patterns (.getSibling, .getParent, .getChild, .parent, .children) as they "
    ++ "create brittle dependencies on view structure. Use view.custom properties or message handling "
    ++ "for better maintainability."

def create (config : Json) : Except Fault Config := do
  let args ← ruleArguments config
  checkArguments "BadComponentReferenceRule" ["forbidden_patterns", "case_sensitive", "severity"] args
  let texts := argument args "forbidden_patterns" .null
  return { scope := { targets := .kinds (NodeKind.scripts ++ [.expressionBinding])
                      severity := severityArgument args }
           texts := if texts.isTrue then texts else .arr (usualTexts.map .str)
           caseSensitive := (argument args "case_sensitive" (.bool true)).isTrue }

namespace Config

def lowered (v : Json) : Except Fault Json :=
  match v with
  | .str s => .ok (.str (Text.lower s))
  | other => .error (.lacks other "lower")

def textAt (c : Config) (i : Nat) (text : Json) : Except Fault Json :=
  match c.texts with
  | .obj _ _ => .error (.missingKey (.int i))
  | _ => .ok text

def found (c : Config) (content : Json) : Except Fault (List Json) := do
  let content ← if c.caseSensitive then pure content else lowered content
  let wanted ← c.texts.parts
  let spelled ← if c.caseSensitive then pure wanted else wanted.mapM lowered
  (wanted.zip spelled).zipIdx.filterMapM fun ((text, spelling), i) => do
    if ← content.holds spelling then return some (← c.textAt i text) else return none

def checkContent (c : Config) (path title : Text) (content : Json) :
    Except Fault (List Finding) := do
  if !content.isTrue then return []
  match ← c.found content with
  | [] => return []
  | main :: others =>
    let more : Text := if others.isEmpty then ""
      else " and " ++ natText others.length ++ " other object traversal pattern(s)"
    return [⟨c.scope.severity, path ++ ": " ++ title ++ " contains '" ++ main.display ++ "'" ++ more
      ++ " which creates brittle view structure dependencies. Consider using view.custom properties "
      ++ "or message handling for component communication instead."⟩]

def inspect (c : Config) (n : Node) : Except Fault (List Finding) :=
  match n.data with
  | .script s => c.checkContent n.path "Script" s.text
  | .expressionBinding expression _ => c.checkContent n.path "Expression" expression
  | _ => .ok []

def check (c : Config) (nodes : List Node) : Except Fault (List Finding) := do
  return (← (← c.scope.select nodes).mapM c.inspect).flatten

end Config

end ViewLint.Traversal
