/-!
# Double-precision numbers

A finite number is a sign, a biased exponent and a fraction, so that every triple is a number and no
two triples are the same one. Arithmetic is exact on fractions and rounds once, to nearest, a half
going to the even neighbour.
-/

namespace ViewLint

inductive Binary64 where
  | nan
  | infinite (negative : Bool)
  /-- A finite number. Exponent zero marks the numbers without the hidden bit. -/
  | finite (negative : Bool) (exponent : Fin 2047) (fraction : Fin (Nat.pow 2 52))
  deriving DecidableEq

/-- The quotient of two numbers, rounded to nearest; a half goes to the even neighbour. -/
def roundDiv (num den : Nat) : Nat :=
  let q := num / den
  let r := num % den
  if den < 2 * r || (2 * r == den && q % 2 == 1) then q + 1 else q

namespace Binary64

/-- The `k`-th number of a sign, counted from zero; past the last one comes the infinity. -/
def ofIndex (negative : Bool) (k : Nat) : Binary64 :=
  if h : k / Nat.pow 2 52 < 2047 then
    .finite negative ⟨k / Nat.pow 2 52, h⟩ ⟨k % Nat.pow 2 52, Nat.mod_lt _ (by decide)⟩
  else .infinite negative

def index (exponent : Fin 2047) (fraction : Fin (Nat.pow 2 52)) : Nat :=
  exponent.val * Nat.pow 2 52 + fraction.val

def zero (negative : Bool) : Binary64 := ofIndex negative 0

/-- The integer `m` and the power `q` with value `m * 2 ^ (q - 1074)` of a finite number. -/
def parts (exponent : Fin 2047) (fraction : Fin (Nat.pow 2 52)) : Nat × Nat :=
  if exponent.val = 0 then (fraction.val, 0) else (Nat.pow 2 52 + fraction.val, exponent.val - 1)

/-- The power `q` such that a unit of `2 ^ (q - 1074)` is the spacing of the numbers around the
fraction `num / den`. -/
def spacing (num den : Nat) : Nat :=
  let guess : Int := (num.log2 : Int) - den.log2 - 52
  let n := if guess < 0 then num * Nat.pow 2 (-guess).toNat else num
  let d := if guess < 0 then den else den * Nat.pow 2 guess.toNat
  let q := if n < d * Nat.pow 2 52 then guess - 1 else guess
  (q + 1074).toNat

def ofRatio (negative : Bool) (num den : Nat) : Binary64 :=
  if num = 0 then zero negative
  else
    let q := spacing num den
    let m := roundDiv (num * Nat.pow 2 1074) (den * Nat.pow 2 q)
    ofIndex negative (q * Nat.pow 2 52 + m)

def ofSignedRatio (zeroNegative : Bool) (num : Int) (den : Nat) : Binary64 :=
  if num = 0 then zero zeroNegative else ofRatio (decide (num < 0)) num.natAbs den

def ofInt (n : Int) : Binary64 := ofSignedRatio false n 1

def numerator (negative : Bool) (exponent : Fin 2047) (fraction : Fin (Nat.pow 2 52)) : Int :=
  let p := parts exponent fraction
  let m : Int := (p.1 * Nat.pow 2 p.2 : Nat)
  if negative then -m else m

def denominator : Nat := Nat.pow 2 1074

def neg : Binary64 → Binary64
  | .nan => .nan
  | .infinite s => .infinite !s
  | .finite s e f => .finite (!s) e f

def add : Binary64 → Binary64 → Binary64
  | .nan, _ => .nan
  | _, .nan => .nan
  | .infinite s, .infinite t => if s == t then .infinite s else .nan
  | .infinite s, _ => .infinite s
  | _, .infinite t => .infinite t
  | .finite s e f, .finite t g h =>
    ofSignedRatio (s && t) (numerator s e f + numerator t g h) denominator

def sub (a b : Binary64) : Binary64 := add a (neg b)

def isZero : Binary64 → Bool
  | .finite _ e f => e.val == 0 && f.val == 0
  | _ => false

def isNegative : Binary64 → Bool
  | .nan => false
  | .infinite s => s
  | .finite s _ _ => s

def mul : Binary64 → Binary64 → Binary64
  | .nan, _ => .nan
  | _, .nan => .nan
  | .infinite s, b => if b.isZero then .nan else .infinite (s != b.isNegative)
  | a, .infinite t => if a.isZero then .nan else .infinite (a.isNegative != t)
  | .finite s e f, .finite t g h =>
    ofSignedRatio (s != t) (numerator s e f * numerator t g h) (denominator * denominator)

def div : Binary64 → Binary64 → Binary64
  | .nan, _ => .nan
  | _, .nan => .nan
  | .infinite _, .infinite _ => .nan
  | .infinite s, b => .infinite (s != b.isNegative)
  | a, .infinite t => zero (a.isNegative != t)
  | .finite s e f, .finite t g h =>
    let d := numerator t g h
    if d = 0 then .nan
    else
      let n := numerator s e f
      ofSignedRatio (s != t) (if d < 0 then -n else n) d.natAbs

def rank : Binary64 → Option Int
  | .nan => none
  | .infinite s => some (if s then -9223372036854775808 else 9223372036854775808)
  | .finite s e f => some (if s then -(index e f : Int) else (index e f : Int))

def le (a b : Binary64) : Bool :=
  match a.rank, b.rank with
  | some i, some j => i ≤ j
  | _, _ => false

def lt (a b : Binary64) : Bool :=
  match a.rank, b.rank with
  | some i, some j => i < j
  | _, _ => false

def beq (a b : Binary64) : Bool :=
  match a.rank, b.rank with
  | some i, some j => i == j
  | _, _ => false

def compareInt (a : Binary64) (n : Int) : Option Ordering :=
  match a with
  | .nan => none
  | .infinite s => some (if s then .lt else .gt)
  | .finite s e f => some (compare (numerator s e f) (n * (denominator : Int)))

end Binary64

end ViewLint
