import ViewLint.Text.Blank
import ViewLint.Text.Search

/-!
# Scanning text for finds

A find is what a step reads at the front of a text, with the number of characters it used. Scanning
goes from left to right; the characters of a find are not looked at again.
-/

namespace ViewLint.Text

def after? (start s : Text) : Option Text :=
  if start.isPrefixOf s then some (s.drop start.length) else none

def scanFrom (step : Text → Option (α × Nat)) : Nat → Text → List α
  | _, [] => []
  | skip + 1, _ :: r => scanFrom step skip r
  | 0, c :: r =>
    match step (c :: r) with
    | some (find, used) => find :: scanFrom step (used - 1) r
    | none => scanFrom step 0 r

def scan (step : Text → Option (α × Nat)) (s : Text) : List α := scanFrom step 0 s

def first? (step : Text → Option α) : Text → Option α
  | [] => none
  | c :: r =>
    match step (c :: r) with
    | some find => some find
    | none => first? step r

def isLetter (c : CodePoint) : Bool :=
  (65 ≤ c.toNat && c.toNat ≤ 90) || (97 ≤ c.toNat && c.toNat ≤ 122)

def startsIdent (c : CodePoint) : Bool := isLetter c || c == '_'

def isIdent (c : CodePoint) : Bool := startsIdent c || (48 ≤ c.toNat && c.toNat ≤ 57)

def ident? : Text → Option Text
  | c :: r => if startsIdent c then some (c :: r.takeWhile isIdent) else none
  | [] => none

def identAfter? (marker s : Text) : Option (Text × Nat) := do
  let name ← ident? (← after? marker s)
  return (name, marker.length + name.length)

/-- The text between a marker at the front and the next `stop`, which must not be empty. -/
def enclosed? (marker : Text) (stop : CodePoint) (s : Text) : Option (Text × Nat) := do
  let body ← after? marker s
  let inner := body.takeWhile (· != stop)
  if inner.isEmpty || inner.length == body.length then none
  else return (inner, marker.length + inner.length + 1)

end ViewLint.Text
