import ViewLint.Number.Decimal
import ViewLint.Text.Quote

/-!
# Encoded text

Texts are encoded in UTF-8. Halves of surrogate pairs have no encoding, except that the name of a file
may hold the 128 halves that stand for single bytes.
-/

namespace ViewLint

/-- The first halves in a text that have no encoding, up to the next character. -/
structure HalfRun where
  start : Nat
  first : CodePoint
  length : Nat
  deriving DecidableEq

def HalfRun.message (r : HalfRun) : Text :=
  "'utf-8' codec can't encode character"
    ++ (if r.length == 1 then
        " '\\u" ++ hexDigits 4 r.first.toNat ++ "' in position " ++ natText r.start
      else "s in position " ++ natText r.start ++ "-" ++ natText (r.start + r.length - 1))
    ++ ": surrogates not allowed"

def CodePoint.isByte (c : CodePoint) : Bool := 0xDC80 ≤ c.toNat && c.toNat ≤ 0xDCFF

namespace Text

def encodedSize (s : Text) : Nat :=
  s.foldl (fun n c => n + match c with
    | .char c => c.utf8Size
    | .half _ => 1) 0

/-- The halves from the first code point on that satisfies `bad`, and then up to the next
character. -/
def halfRun? (bad : CodePoint → Bool) (s : Text) : Option HalfRun :=
  match s.dropWhile (!bad ·) with
  | [] => none
  | c :: r => some ⟨s.length - r.length - 1, c, 1 + (r.takeWhile (!·.isChar)).length⟩

def halves? (s : Text) : Option HalfRun := halfRun? (!·.isChar) s

def nameHalves? (s : Text) : Option HalfRun := halfRun? (fun c => !c.isChar && !c.isByte) s

end Text

end ViewLint
