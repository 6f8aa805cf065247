import ViewLint.Number.Decimal

/-!
# Columns

* `Text.padEnd`, `Text.padStart`: a text filled with blanks up to a width.
* `Text.grouped`: a number with its digits in groups of three.
-/

namespace ViewLint.Text

/-- A text at the start of a column. A text that is too wide stays as it is. -/
def padEnd (width : Nat) (s : Text) : Text :=
  s ++ List.replicate (width - s.length) (.char ' ')

def padStart (width : Nat) (s : Text) : Text :=
  List.replicate (width - s.length) (.char ' ') ++ s

def groupReversed : Text → Text
  | a :: b :: c :: d :: rest => a :: b :: c :: ',' :: groupReversed (d :: rest)
  | digits => digits

def grouped (n : Nat) : Text := (groupReversed (natDigits n).reverse).reverse

end ViewLint.Text
