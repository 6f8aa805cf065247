import ViewLint.Text.CodePoint

/-!
# Blank characters

White space in the sense of Unicode, and the operations that cut text at it.
-/

namespace ViewLint

/-- The characters that Unicode classes as white space, together with the four information
separators. -/
def isBlank (c : CodePoint) : Bool :=
  let n := c.toNat
  (9 ≤ n && n ≤ 13) || (28 ≤ n && n ≤ 32) || n == 0x85 || n == 0xA0 || n == 0x1680 ||
    (0x2000 ≤ n && n ≤ 0x200A) || n == 0x2028 || n == 0x2029 || n == 0x202F || n == 0x205F ||
    n == 0x3000

namespace Text

def stripStart (s : Text) : Text := s.dropWhile isBlank

def stripEnd (s : Text) : Text := (s.reverse.dropWhile isBlank).reverse

def strip (s : Text) : Text := stripEnd (stripStart s)

def isBlankText (s : Text) : Bool := s.all isBlank

end Text

end ViewLint
