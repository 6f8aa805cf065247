import ViewLint.Text.Digits
import ViewLint.Text.Word

/-!
# Text patterns

Patterns with groups, repetition, alternatives and lookahead, and a backtracking matcher for them.
The matcher explores a pattern from left to right and takes the first way that works.
-/

namespace ViewLint

/-! ## Patterns -/

inductive CharSet where
  | none
  | char (c : CodePoint)
  | range (lo hi : CodePoint)
  | any
  | digit
  | word
  | blank
  | either (a b : CharSet)
  | except (a : CharSet)

namespace CharSet

def has : CharSet → CodePoint → Bool
  | .none, _ => false
  | .char d, c => c == d
  | .range lo hi, c => lo.toNat ≤ c.toNat && c.toNat ≤ hi.toNat
  | .any, c => c != '\n'
  | .digit, c => isDigit c
  | .word, c => isWord c
  | .blank, c => isBlank c
  | .either a b, c => a.has c || b.has c
  | .except a, c => !a.has c

def of (s : Text) : CharSet := s.foldr (fun c acc => .either (.char c) acc) .none

def upper : CharSet := .range 'A' 'Z'

def lower : CharSet := .range 'a' 'z'

def letter : CharSet := .either lower upper

def alnum : CharSet := .either letter (.range '0' '9')

end CharSet

inductive Pattern where
  | empty
  | set (s : CharSet)
  | seq (a b : Pattern)
  | alt (a b : Pattern)
  | rep (greedy : Bool) (min : Nat) (max : Option Nat) (a : Pattern)
  | group (index : Nat) (a : Pattern)
  | start
  /-- The end of the text, or the place before a line feed at its end. -/
  | finish
  | ahead (positive : Bool) (a : Pattern)

namespace Pattern

def lit (s : Text) : Pattern := s.foldr (fun c acc => .seq (.set (.char c)) acc) .empty

def cat (ps : List Pattern) : Pattern := ps.foldr .seq .empty

def many (s : CharSet) : Pattern := .rep true 0 none (.set s)

def many1 (s : CharSet) : Pattern := .rep true 1 none (.set s)

/-! ## Matching -/

structure Cursor where
  pos : Nat
  rest : Text
  groups : List (Nat × Nat × Nat) := []

abbrev Next := Cursor → Option Cursor

/-- Repeats a pattern, which is given by its matcher; `fuel` bounds the number of rounds. -/
def repeatRun (body : Cursor → Next → Option Cursor) (greedy : Bool) (min : Nat)
    (max : Option Nat) : Nat → Nat → Cursor → Next → Option Cursor
  | 0, count, c, next => if min ≤ count then next c else none
  | fuel + 1, count, c, next =>
    let more (_ : Unit) : Option Cursor :=
      if max == some count then none
      else body c fun d =>
        if d.pos == c.pos && min ≤ count then none
        else repeatRun body greedy min max fuel (count + 1) d next
    if count < min then more ()
    else if greedy then
      match more () with
      | some r => some r
      | none => next c
    else match next c with
      | some r => some r
      | none => more ()

def run (size : Nat) : Pattern → Cursor → Next → Option Cursor
  | .empty, c, next => next c
  | .set s, c, next =>
    match c.rest with
    | x :: r => if s.has x then next { c with pos := c.pos + 1, rest := r } else none
    | [] => none
  | .seq a b, c, next => run size a c fun d => run size b d next
  | .alt a b, c, next =>
    match run size a c next with
    | some r => some r
    | none => run size b c next
  | .rep greedy min max a, c, next =>
    repeatRun (run size a) greedy min max (size - c.pos + min + 1) 0 c next
  | .group index a, c, next =>
    run size a c fun d => next { d with groups := (index, c.pos, d.pos) :: d.groups }
  | .start, c, next => if c.pos == 0 then next c else none
  | .finish, c, next => if c.rest.isEmpty || c.rest == [.char '\n'] then next c else none
  | .ahead positive a, c, next =>
    match run size a c some with
    | some d => if positive then next { c with groups := d.groups } else none
    | none => if positive then none else next c

structure Match where
  text : Text
  first : Nat
  last : Nat
  groups : List (Nat × Nat × Nat)

def Match.matched (m : Match) : Text := (m.text.take m.last).drop m.first

def Match.group? (m : Match) (index : Nat) : Option Text :=
  (m.groups.find? (·.1 == index)).map fun (_, first, last) => (m.text.take last).drop first

def Match.groupText (m : Match) (index : Nat) : Text :=
  (m.group? index).getD []

def matchAt? (p : Pattern) (text : Text) (pos : Nat) (rest : Text) : Option Match :=
  (p.run text.length ⟨pos, rest, []⟩ some).map fun d => ⟨text, pos, d.pos, d.groups⟩

/-- The matches that start at or after a place and do not overlap, the first `skip` characters left
out. -/
def findAllFrom (p : Pattern) (text : Text) : Nat → Nat → Text → List Match
  | _, pos, [] => (p.matchAt? text pos []).toList
  | skip + 1, pos, _ :: r => findAllFrom p text skip (pos + 1) r
  | 0, pos, x :: r =>
    match p.matchAt? text pos (x :: r) with
    | some m => m :: findAllFrom p text (m.last - pos - 1) (pos + 1) r
    | none => findAllFrom p text 0 (pos + 1) r

def matchStart? (p : Pattern) (s : Text) : Option Match := p.matchAt? s 0 s

def findAll (p : Pattern) (s : Text) : List Match := p.findAllFrom s 0 0 s

end Pattern

end ViewLint
