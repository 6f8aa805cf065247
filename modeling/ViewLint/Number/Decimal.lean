import ViewLint.Number.Binary64
import ViewLint.Text.CodePoint

/-!
# Decimal text of numbers

A number is written with the fewest digits that read back, or with a given count of decimal places.
-/

namespace ViewLint

def natDigits (n : Nat) : Text := (Nat.toDigits 10 n).map .char

def natText (n : Nat) : Text := natDigits n

def intText (n : Int) : Text := if n < 0 then "-" ++ natText n.natAbs else natText n.natAbs

namespace Binary64

/-- The number nearest to `digits * 10 ^ exponent`. Exponents far outside the range of the format
are settled without forming the power. -/
def ofDecimal (negative : Bool) (digits : Nat) (exponent : Int) : Binary64 :=
  if digits = 0 then zero negative
  else
    let size : Int := (natDigits digits).length + exponent
    if 400 < size then .infinite negative
    else if size < -400 then zero negative
    else if exponent < 0 then ofRatio negative digits (Nat.pow 10 (-exponent).toNat)
    else ofRatio negative (digits * Nat.pow 10 exponent.toNat) 1

structure Decimal where
  digits : Nat
  exponent : Int
  deriving DecidableEq

def leadExponent (num den : Nat) : Int :=
  let guess : Int := ((natDigits num).length : Int) - (natDigits den).length
  let reached := if guess < 0 then den ≤ num * Nat.pow 10 (-guess).toNat
    else den * Nat.pow 10 guess.toNat ≤ num
  if reached then guess else guess - 1

/-- The two neighbours of `num / den` on the grid of `10 ^ exponent`, the nearer one first. -/
def neighbours (num den : Nat) (exponent : Int) : List Decimal :=
  let n := if exponent < 0 then num * Nat.pow 10 (-exponent).toNat else num
  let d := if exponent < 0 then den else den * Nat.pow 10 exponent.toNat
  let below := n / d
  let rest := 2 * (n % d)
  if rest < d || (rest == d && below % 2 == 0) then [⟨below, exponent⟩, ⟨below + 1, exponent⟩]
  else [⟨below + 1, exponent⟩, ⟨below, exponent⟩]

/-- The first grid, of the given counts of digits, that holds a decimal which reads back as `x`. -/
def shortestOn (x : Binary64) (num den : Nat) (lead : Int) : List Nat → Option Decimal
  | [] => none
  | count :: counts =>
    match (neighbours num den (lead - count + 1)).find? fun d =>
        ofDecimal x.isNegative d.digits d.exponent == x with
    | some d => some d
    | none => shortestOn x num den lead counts

def exactDecimal (m q : Nat) : Decimal := ⟨m * Nat.pow 2 q * Nat.pow 5 1074, -1074⟩

def shortest (negative : Bool) (exponent : Fin 2047) (fraction : Fin (Nat.pow 2 52)) : Decimal :=
  let p := parts exponent fraction
  let num := p.1 * Nat.pow 2 p.2
  if num = 0 then ⟨0, 0⟩
  else
    let x := Binary64.finite negative exponent fraction
    match shortestOn x num denominator (leadExponent num denominator) (List.range' 1 17) with
    | some d => d
    | none => exactDecimal p.1 p.2

def dropZeros (digits : Text) : Text × Nat :=
  let kept := (digits.reverse.dropWhile (· == .char '0')).reverse
  (kept, digits.length - kept.length)

def zeros (n : Nat) : Text := List.replicate n '0'

/-- Digits with a point after the first `k`, zeros filling what is missing on either side. -/
def pointAt (digits : Text) (k : Int) : Text :=
  if k ≤ 0 then "0." ++ zeros (-k).toNat ++ digits
  else if digits.length ≤ k.toNat then digits ++ zeros (k.toNat - digits.length) ++ ".0"
  else digits.take k.toNat ++ "." ++ digits.drop k.toNat

def scientific (digits : Text) (exponent : Int) : Text :=
  let tail : Text := match digits.drop 1 with
    | [] => []
    | rest => '.' :: rest
  let size := natDigits exponent.natAbs
  digits.take 1 ++ tail ++ (if exponent < 0 then "e-" else "e+") ++ zeros (2 - size.length) ++ size

/-- A finite number as text: positional from `10 ^ -4` up to `10 ^ 16`, scientific beyond. -/
def finiteText (negative : Bool) (exponent : Fin 2047) (fraction : Fin (Nat.pow 2 52)) : Text :=
  let d := shortest negative exponent fraction
  let sign : Text := if negative then "-" else ""
  if d.digits = 0 then sign ++ "0.0"
  else
    let (digits, dropped) := dropZeros (natDigits d.digits)
    let point : Int := digits.length + (d.exponent + dropped)
    sign ++ (if -4 < point && point ≤ 16 then pointAt digits point
      else scientific digits (point - 1))

def text : Binary64 → Text
  | .nan => "nan"
  | .infinite s => if s then "-inf" else "inf"
  | .finite s e f => finiteText s e f

/-- The nearest multiple of `10 ^ -places` to a finite number, as a count of such units. -/
def units (places : Nat) (exponent : Fin 2047) (fraction : Fin (Nat.pow 2 52)) : Nat :=
  let p := parts exponent fraction
  roundDiv (p.1 * Nat.pow 2 p.2 * Nat.pow 10 places) denominator

def fixed (places : Nat) : Binary64 → Text
  | .nan => "nan"
  | .infinite s => if s then "-inf" else "inf"
  | .finite s e f =>
    let n := units places e f
    let whole := natText (n / Nat.pow 10 places)
    let part := natDigits (n % Nat.pow 10 places)
    let tail : Text := if places = 0 then "" else "." ++ zeros (places - part.length) ++ part
    (if s then "-" else "") ++ whole ++ tail

def round (places : Nat) : Binary64 → Binary64
  | .finite s e f => ofRatio s (units places e f) (Nat.pow 10 places)
  | x => x

end Binary64

end ViewLint
