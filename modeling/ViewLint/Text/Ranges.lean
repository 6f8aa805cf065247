import ViewLint.Text.CodePoint

/-!
# Ranges of code points

A class of characters is a list of closed intervals of code points in increasing order. A table
gives it by the lengths of its runs: how many code points from `start` on are outside, how many of
the next ones are inside, and so on in turn.
-/

namespace ViewLint

abbrev Ranges := List (Nat × Nat)

def Ranges.ofRuns (start : Nat) : List Nat → Ranges
  | outside :: inside :: rest =>
    (start + outside, start + outside + inside - 1) :: ofRuns (start + outside + inside) rest
  | _ => []

def Ranges.has : Ranges → Nat → Bool
  | [], _ => false
  | (lo, hi) :: rest, n => if n < lo then false else n ≤ hi || Ranges.has rest n

end ViewLint
