import ViewLint.Json.Basic

/-!
# Reading and building values

What an object holds, with a plain value where it holds nothing of the kind, and values made from
lists and options.
-/

namespace ViewLint.Json

/-! ## Reading -/

def member (v : Json) (key : Text) : Json := (v.get? key).getD .null

def text (v : Json) (key : Text) : Text := (v.member key).str?.getD ""

def list (v : Json) (key : Text) : List Json := (v.member key).items?.getD []

def flag (v : Json) (key : Text) (default : Bool) : Bool := ((v.get? key).map isTrue).getD default

def fields (v : Json) : List (Text × Json) := v.fields?.getD []

def pairsOf (v : Json) : List (Text × Json) :=
  (v.items?.getD []).filterMap fun
    | .arr [.str key, value] => some (key, value)
    | _ => none

/-! ## Building -/

def texts (xs : List Text) : Json := .arr (xs.map .str)

def nat (n : Nat) : Json := .int n

def pairs (fields : List (Text × Json)) : Json := .arr (fields.map fun f => .arr [.str f.1, f.2])

def optional : Option Text → Json
  | some s => .str s
  | none => .null

mutual

/-- A value in which the parts that `f` gives a replacement for are replaced, from outside in. -/
def replaceParts (f : Json → Option Json) (v : Json) : Json :=
  match f v with
  | some new => new
  | none =>
    match v with
    | .arr items => .arr (replaceItems f items)
    | .obj kind fields => .obj kind (replaceFields f fields)
    | v => v

def replaceItems (f : Json → Option Json) : List Json → List Json
  | [] => []
  | x :: rest => replaceParts f x :: replaceItems f rest

def replaceFields (f : Json → Option Json) : List (Key × Json) → List (Key × Json)
  | [] => []
  | (k, v) :: rest => (k, replaceParts f v) :: replaceFields f rest

end

end ViewLint.Json
