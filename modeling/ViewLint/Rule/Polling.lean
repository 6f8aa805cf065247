import ViewLint.Rule.Basic
import ViewLint.Text.Scan

/-!
# Polling intervals

An expression polls where it calls `now`. The rule asks that each call names an interval and that the
interval, unless it is zero, is not below a minimum.
-/

namespace ViewLint.Polling

def opened? (s : Text) : Option Text := do
  match Text.stripStart (← Text.after? "now" s) with
  | '(' :: r => return r
  | _ => none

def call? (s : Text) : Option (Text × Nat) := do
  let inside := Text.stripStart (← opened? s)
  match Text.stripStart (inside.dropWhile isDigit) with
  | ')' :: r => return (inside.takeWhile isDigit, s.length - r.length)
  | _ => none

/-- The intervals of the calls in an expression, as digits; a call may leave its interval out. -/
def intervals (s : Text) : List Text := Text.scan call? s

def opens (s : Text) : Bool := (Text.first? opened? s).isSome

/-- Whether intervals are all given, readable, and zero or not below the minimum. -/
def allLong (minimum : Json) : List Text → Except Fault Bool
  | [] => .ok true
  | digits :: rest =>
    if digits.isEmpty || Json.digitLimit < digits.length then .ok false
    else if Text.digitsValue digits == 0 then allLong minimum rest
    else do
      if ← Json.countBelow (Text.digitsValue digits) minimum then return false
      allLong minimum rest

/-- The verdict on an expression. Without a complete call, none may be opened. -/
def isValid (minimum : Json) (expression : Text) : Except Fault Bool :=
  match intervals expression with
  | [] => .ok (!opens expression)
  | given => allLong minimum given

/-- The verdict on a value. One that holds no call is right, and else it has to be a text. -/
def isValidValue (minimum expression : Json) : Except Fault Bool := do
  if !(← expression.holds (.str "now")) then return true
  match expression with
  | .str text => isValid minimum text
  | other =>
    .error (.badKind ("expected string or bytes-like object, got '" ++ other.kindName ++ "'"))

/-! ## The rule -/

structure Config where
  scope : Scope
  minimum : Json

def create (config : Json) : Except Fault Config := do
  let args ← ruleArguments config
  checkArguments "PollingIntervalRule" ["minimum_interval", "severity"] args
  return { scope := { targets := .kinds NodeKind.bindings, severity := severityArgument args }
           minimum := argument args "minimum_interval" (.int 10000) }

namespace Config

def purpose (c : Config) : Text :=
  "Polling interval below minimum of " ++ c.minimum.display ++ "ms"

def checkExpression (c : Config) (place : Text) (expression : Json) :
    Except Fault (List Finding) := do
  if ← isValidValue c.minimum expression then return []
  return [⟨c.scope.severity, place ++ ": '" ++ expression.display ++ "'"⟩]

def expressions (n : Node) : List (Text × Json) :=
  match n.data with
  | .expressionBinding expression _ => [(n.path, expression)]
  | .expressionStructBinding struct _ => struct.map fun e => (n.path ++ "." ++ e.1, e.2)
  | .queryBinding _ parameters _ => parameters.map fun e => (n.path ++ "." ++ e.1, e.2)
  | .tagBinding tagPath mode references _ =>
    if mode.equals (.str "expression") then [(n.path, tagPath)]
    else if mode.equals (.str "indirect") then
      references.map fun e => (n.path ++ ".references." ++ e.1, e.2)
    else []
  | _ => []

def check (c : Config) (nodes : List Node) : Except Fault (List Finding) := do
  let found ← ((← c.scope.select nodes).flatMap expressions).mapM fun e => c.checkExpression e.1 e.2
  return found.flatten

end Config

end ViewLint.Polling
