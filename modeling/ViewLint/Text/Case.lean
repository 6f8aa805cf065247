import ViewLint.Text.CaseTable

/-!
# Letter case

Upper, lower and title case of text in every script. A capital sigma at the end of a word becomes
the final sigma in lower case.
-/

namespace ViewLint

namespace CaseTable

def shift : List CaseRun → Nat → Nat
  | [], n => n
  | (lo, hi, step, delta) :: rest, n =>
    if n < lo then n
    else if n ≤ hi && (n - lo) % step == 0 then (n + delta).toNat
    else shift rest n

def map (runs : List CaseRun) (exceptions : List (Nat × List Nat)) (c : CodePoint) : Text :=
  match exceptions.find? (·.1 == c.toNat) with
  | some (_, image) => image.map CodePoint.ofNat
  | none => [CodePoint.ofNat (shift runs c.toNat)]

end CaseTable

def isCased (c : CodePoint) : Bool := casedRanges.has c.toNat

def isCaseIgnorable (c : CodePoint) : Bool := caseIgnorableRanges.has c.toNat

def upperChar (c : CodePoint) : Text := CaseTable.map upperRuns upperExceptions c

def lowerChar (c : CodePoint) : Text := CaseTable.map lowerRuns lowerExceptions c

def titleChar (c : CodePoint) : Text :=
  match titleExceptions.find? (·.1 == c.toNat) with
  | some (_, image) => image.map CodePoint.ofNat
  | none => upperChar c

namespace Text

def nextIsCased (s : Text) : Bool :=
  match s.dropWhile isCaseIgnorable with
  | [] => false
  | c :: _ => isCased c

/-- The lower case of a character between the text before it, read backwards, and the text after
it. -/
def lowerAt (before : Text) (c : CodePoint) (after : Text) : Text :=
  if c.toNat == 0x3A3 then
    [if nextIsCased before && !nextIsCased after then CodePoint.ofNat 0x3C2 else CodePoint.ofNat 0x3C3]
  else lowerChar c

def lowerFrom (before : Text) : Text → Text
  | [] => []
  | c :: r => lowerAt before c r ++ lowerFrom (c :: before) r

def lower (s : Text) : Text := lowerFrom [] s

def upper (s : Text) : Text := s.flatMap upperChar

def capitalize : Text → Text
  | [] => []
  | c :: r => titleChar c ++ lowerFrom [c] r

end Text

end ViewLint
