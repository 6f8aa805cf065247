/-!
# Text

A text is a list of code points. A document can write half of a surrogate pair, which is no character;
such a half is kept and compared like any character, but it cannot be encoded.
-/

namespace ViewLint

inductive CodePoint where
  | char (c : Char)
  | half (k : Fin 0x800)
  deriving DecidableEq

instance : Coe Char CodePoint := ⟨.char⟩

instance : Inhabited CodePoint := ⟨.char ' '⟩

namespace CodePoint

def toNat : CodePoint → Nat
  | .char c => c.toNat
  | .half k => 0xD800 + k.val

/-- The code point with a number; a number that is too large stands for the character zero. -/
def ofNat (n : Nat) : CodePoint :=
  if h : n - 0xD800 < 0x800 then if 0xD800 ≤ n then .half ⟨n - 0xD800, h⟩ else .char (Char.ofNat n)
  else .char (Char.ofNat n)

def isChar : CodePoint → Bool
  | .char _ => true
  | .half _ => false

end CodePoint

abbrev Text := List CodePoint

namespace Text

def ofString (s : String) : Text := s.toList.map .char

instance : Coe String Text := ⟨ofString⟩

def chars? : Text → Option (List Char)
  | [] => some []
  | .char c :: r => (chars? r).map (c :: ·)
  | .half _ :: _ => none

def toString? (s : Text) : Option String := (chars? s).map String.ofList

def isEncodable (s : Text) : Bool := s.all CodePoint.isChar

end Text

end ViewLint
