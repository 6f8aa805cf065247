import ViewLint.Text.CodePoint

/-!
# Searching and cutting text

Substrings are found from the left, without overlaps; `rcut?` looks from the right. Everything is by
recursion on the list of code points.
-/

namespace ViewLint.Text

def startsWith (s start : Text) : Bool := start.isPrefixOf s

def endsWith (s ending : Text) : Bool := ending.isSuffixOf s

def cut? (needle : Text) : Text → Option (Text × Text)
  | [] => if needle.isEmpty then some ([], []) else none
  | c :: r =>
    if needle.isPrefixOf (c :: r) then some ([], (c :: r).drop needle.length)
    else (cut? needle r).map fun p => (c :: p.1, p.2)

def rcut? (needle s : Text) : Option (Text × Text) :=
  (cut? needle.reverse s.reverse).map fun p => (p.2.reverse, p.1.reverse)

def holds (s needle : Text) : Bool := (cut? needle s).isSome

def before (sep s : Text) : Text := ((cut? sep s).map (·.1)).getD s

def beforeLast (sep s : Text) : Text := ((rcut? sep s).map (·.1)).getD s

def afterLast (sep s : Text) : Text := ((rcut? sep s).map (·.2)).getD s

def consHead (c : CodePoint) : List Text → List Text
  | [] => [[c]]
  | piece :: rest => (c :: piece) :: rest

def splitFrom (sep : Text) : Nat → Text → List Text
  | _, [] => [[]]
  | skip + 1, _ :: r => splitFrom sep skip r
  | 0, c :: r =>
    if sep.isPrefixOf (c :: r) then [] :: splitFrom sep (sep.length - 1) r
    else consHead c (splitFrom sep 0 r)

def splitOn (sep s : Text) : List Text := splitFrom sep 0 s

def splitWhere (p : CodePoint → Bool) : Text → List Text
  | [] => [[]]
  | c :: r => if p c then [] :: splitWhere p r else consHead c (splitWhere p r)

def join (sep : Text) : List Text → Text
  | [] => []
  | [piece] => piece
  | piece :: rest => piece ++ sep ++ join sep rest

/-- Every occurrence of `old` exchanged for `new`. An empty `old` occurs before each code point and at
the end. -/
def replace (old new s : Text) : Text :=
  if old.isEmpty then new ++ s.flatMap fun c => c :: new
  else join new (splitOn old s)

def occurrences (needle s : Text) : Nat := (splitOn needle s).length - 1

def repeated (n : Nat) (s : Text) : Text := (List.replicate n s).flatten

def le : Text → Text → Bool
  | [], _ => true
  | _ :: _, [] => false
  | c :: r, d :: t => c.toNat < d.toNat || (c == d && le r t)

def sort (xs : List Text) : List Text := xs.mergeSort le

def dedup (xs : List Text) : List Text :=
  (xs.foldl (fun seen x => if seen.contains x then seen else x :: seen) []).reverse

end ViewLint.Text
