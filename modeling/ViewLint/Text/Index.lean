import ViewLint.Text.Digits
import ViewLint.Text.Search

/-!
# Indices in paths

An index is a run of digits between brackets.
-/

namespace ViewLint.Text

def bracketed? : Text → Option (Text × Text)
  | '[' :: r =>
    let digits := r.takeWhile isDigit
    match r.dropWhile isDigit with
    | ']' :: rest => if digits.isEmpty then none else some (digits, rest)
    | _ => none
  | _ => none

def dropIndicesFrom : Nat → Text → Text
  | _, [] => []
  | skip + 1, _ :: r => dropIndicesFrom skip r
  | 0, c :: r =>
    match bracketed? (c :: r) with
    | some (digits, _) => dropIndicesFrom (digits.length + 1) r
    | none => c :: dropIndicesFrom 0 r

def dropIndices (s : Text) : Text := dropIndicesFrom 0 s

/-- A path without the index at its end. A line feed at the very end may follow the index, and
stays. -/
def dropLastIndex : Text → Text
  | [] => []
  | c :: r =>
    match bracketed? (c :: r) with
    | some (_, []) => []
    | some (_, ['\n']) => ['\n']
    | _ => c :: dropLastIndex r

def indexAfter? (marker : Text) : Text → Option Text
  | [] => none
  | c :: r =>
    let here :=
      if marker.isPrefixOf (c :: r) then bracketed? ((c :: r).drop marker.length) else none
    match here with
    | some (digits, _) => some digits
    | none => indexAfter? marker r

end ViewLint.Text
