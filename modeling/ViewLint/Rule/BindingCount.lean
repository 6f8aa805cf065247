import ViewLint.Json.Access
import ViewLint.Rule.Basic

/-!
# Number of bindings of a component

The rule counts the expression, property and tag bindings below each component and reports
components with many. The counts of components that no longer occur stay in the table.
-/

namespace ViewLint.BindingCount

abbrev Table := List (Text × Nat)

structure Config where
  scope : Scope
  warnAt : Json
  failAt : Json

/-! ## Counting -/

/-- The nearest component above a path: the longest beginning of whole steps that is in the table. -/
def owner? (table : Table) (path : Text) : Option Text :=
  let steps := Text.splitOn "." path
  ((List.range steps.length).drop 1).reverse.findSome? fun i =>
    let place := Text.join "." (steps.take i)
    if Fields.has table place then some place else none

def count (table : Table) (n : Node) : Table :=
  match n.kind with
  | .component => Fields.insert table n.path 0
  | .expressionBinding | .propertyBinding | .tagBinding =>
    match owner? table n.path with
    | some place => if place.isEmpty then table else Fields.modify table place 0 (· + 1)
    | none => table
  | _ => table

/-! ## The rule -/

/-- The blanks that may stand around a written number: white space, but not the information
separators. -/
def isOuterBlank (c : CodePoint) : Bool := isBlank c && !(28 ≤ c.toNat && c.toNat ≤ 31)

def quoteLimit : Nat := 200

/-- The number that a text writes: digits with single low lines between them, after an optional sign,
and with blanks around. Too many digits are refused before anything that follows them. -/
def readInt (text : Text) : Except Fault Int :=
  let s := ((text.dropWhile isOuterBlank).reverse.dropWhile isOuterBlank).reverse
  let (negative, unsigned) : Bool × Text := match s with
    | '-' :: r => (true, r)
    | '+' :: r => (false, r)
    | r => (false, r)
  let isPart (c : CodePoint) : Bool := isDigit c || c == '_'
  let groups := Text.splitWhere (· == '_') (unsigned.takeWhile isPart)
  let digits := groups.flatten
  let invalid : Fault := .badValue
    ("invalid literal for int() with base 10: " ++ (Text.quote text).take quoteLimit)
  if groups.any (·.isEmpty) then .error invalid
  else if Json.digitLimit < digits.length then
    .error (.badValue (Json.digitLimitMessage digits.length))
  else if !(unsigned.dropWhile isPart).isEmpty then .error invalid
  else .ok (if negative then -(Text.digitsValue digits : Int) else Text.digitsValue digits)

def threshold (v : Json) : Except Fault Json :=
  match v with
  | .str s => (readInt s).map .int
  | other => .ok other

def argumentNames : List Text := ["warning_threshold", "error_threshold"]

def create (config : Json) : Except Fault Config := do
  match config with
  | .obj _ _ =>
    let args := config.fields
    let warnAt ← threshold (argument args "warning_threshold" (.int 5))
    let failAt ← threshold (argument args "error_threshold" (.int 10))
    checkArguments "ExampleBindingCountRule" argumentNames args
    return { scope := { targets := .kinds (.component :: NodeKind.bindings), severity := .error }
             warnAt, failAt }
  | .arr items =>
    if argumentNames.any fun name => items.any (·.equals (.str name)) then
      .error (.badKind "list indices must be integers or slices, not str")
    .error (.badKind
      "ignition_lint.rules.examples.example_rule.ExampleBindingCountRule() argument after ** must be a mapping, not list")
  | other => .error (.lacks other "copy")

namespace Config

def purpose (c : Config) : Text :=
  "Components should not have more than " ++ c.failAt.display ++ " bindings"

def inspect (c : Config) (path : Text) (count : Nat) : Except Fault (List Finding) := do
  let counted := "Component '" ++ Text.afterLast "." path ++ "' has " ++ natText count ++ " bindings "
  if ← Json.countReaches count c.failAt then
    return [⟨.error, path ++ ": " ++ counted ++ "(exceeds error threshold of "
      ++ c.failAt.display ++ ")"⟩]
  if ← Json.countReaches count c.warnAt then
    return [⟨.error, path ++ ": WARNING - " ++ counted ++ "(exceeds warning threshold of "
      ++ c.warnAt.display ++ ")"⟩]
  return []

def check (c : Config) (table : Table) (nodes : List Node) : Except Fault (List Finding × Table) := do
  let table := (← c.scope.select nodes).foldl count table
  return ((← table.mapM fun e => c.inspect e.1 e.2).flatten, table)

end Config

end ViewLint.BindingCount
