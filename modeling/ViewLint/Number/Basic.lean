import ViewLint.Number.Decimal

/-!
# Numbers

A number is an integer of any size or a double-precision number. Integers stay exact as long as only
integers take part; otherwise they are rounded to double precision first, which fails for integers
beyond its range.
-/

namespace ViewLint

inductive Number where
  | int (n : Int)
  | float (x : Binary64)
  deriving DecidableEq

inductive Overflow where
  | integer
  | quotient
  deriving DecidableEq

def Overflow.message : Overflow → Text
  | .integer => "int too large to convert to float"
  | .quotient => "integer division result too large for a float"

namespace Number

instance : Inhabited Number := ⟨.int 0⟩

def compare? : Number → Number → Option Ordering
  | .int m, .int n => some (compare m n)
  | .float x, .int n => x.compareInt n
  | .int n, .float y => (y.compareInt n).map Ordering.swap
  | .float x, .float y =>
    if x.lt y then some .lt else if x.beq y then some .eq else if y.lt x then some .gt else none

def lt (a b : Number) : Bool := compare? a b == some .lt

def isZero : Number → Bool
  | .int n => n == 0
  | .float x => x.isZero

def inRange (o : Overflow) : Binary64 → Except Overflow Binary64
  | .infinite _ => .error o
  | x => .ok x

def toFloat : Number → Except Overflow Binary64
  | .int n => inRange .integer (Binary64.ofInt n)
  | .float x => .ok x

def inFloat (op : Binary64 → Binary64 → Binary64) (a b : Number) : Except Overflow Number := do
  return .float (op (← a.toFloat) (← b.toFloat))

def add : Number → Number → Except Overflow Number
  | .int m, .int n => .ok (.int (m + n))
  | a, b => inFloat Binary64.add a b

def sub : Number → Number → Except Overflow Number
  | .int m, .int n => .ok (.int (m - n))
  | a, b => inFloat Binary64.sub a b

def mul : Number → Number → Except Overflow Number
  | .int m, .int n => .ok (.int (m * n))
  | a, b => inFloat Binary64.mul a b

def div (a : Number) (count : Nat) : Except Overflow Binary64 :=
  match a with
  | .int m => inRange .quotient (Binary64.ofSignedRatio false m count)
  | .float x => .ok (x.div (.ofInt count))

def sum (xs : List Number) : Except Overflow Number := xs.foldlM add (.int 0)

def round (places : Nat) : Number → Number
  | .int n => .int n
  | .float x => .float (x.round places)

def fixed (places : Nat) (a : Number) : Except Overflow Text := do return (← a.toFloat).fixed places

end Number

end ViewLint
