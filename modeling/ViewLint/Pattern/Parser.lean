import ViewLint.Number.Decimal
import ViewLint.Pattern.Basic

/-!
# Reading patterns

The written form of a pattern: literal characters, `.`, `^`, `$`, sets in brackets, escapes for
classes, groups, `|`, lookahead and the repetitions `*`, `+`, `?` and `{m,n}`, each of which becomes
reluctant by a further `?`.
-/

namespace ViewLint.Pattern

inductive Cause where
  | unterminatedSet
  | missingParenthesis
  | unbalancedParenthesis
  | nothingToRepeat
  | multipleRepeat
  | badEscape (c : CodePoint)
  | danglingBackslash
  | badRange (text : Text)
  | minOverMax
  | unknownExtension (text : Text)
  deriving DecidableEq

def Cause.message : Cause → Text
  | .unterminatedSet => "unterminated character set"
  | .missingParenthesis => "missing ), unterminated subpattern"
  | .unbalancedParenthesis => "unbalanced parenthesis"
  | .nothingToRepeat => "nothing to repeat"
  | .multipleRepeat => "multiple repeat"
  | .badEscape c => "bad escape \\" ++ [c]
  | .danglingBackslash => "bad escape (end of pattern)"
  | .badRange text => "bad character range " ++ text
  | .minOverMax => "min repeat greater than max repeat"
  | .unknownExtension text => "unknown extension " ++ text

structure Failure where
  cause : Cause
  left : Nat
  deriving DecidableEq

def classOf? (c : CodePoint) : Option CharSet :=
  if c == 'd' then some .digit
  else if c == 'D' then some (.except .digit)
  else if c == 'w' then some .word
  else if c == 'W' then some (.except .word)
  else if c == 's' then some .blank
  else if c == 'S' then some (.except .blank)
  else none

def controlOf? (c : CodePoint) : Option CodePoint :=
  if c == 'n' then some '\n'
  else if c == 't' then some '\t'
  else if c == 'r' then some '\r'
  else if c == 'f' then some (CodePoint.ofNat 12)
  else if c == 'v' then some (CodePoint.ofNat 11)
  else if c == 'a' then some (CodePoint.ofNat 7)
  else none

/-- An escaped character; a letter or digit without a meaning is refused. -/
def escaped (c : CodePoint) (left : Nat) : Except Failure (CharSet ⊕ CodePoint) :=
  match classOf? c, controlOf? c with
  | some s, _ => .ok (.inl s)
  | _, some d => .ok (.inr d)
  | none, none =>
    if CharSet.alnum.has c then .error ⟨.badEscape c, left⟩ else .ok (.inr c)

def setMember : Text → Except Failure ((CharSet ⊕ CodePoint) × Text)
  | [] => .error ⟨.unterminatedSet, 0⟩
  | '\\' :: c :: r => (escaped c (r.length + 2)).map (·, r)
  | c :: r => .ok (.inr c, r)

def memberSet : CharSet ⊕ CodePoint → CharSet
  | .inl s => s
  | .inr c => .char c

/-- The members of a bracketed set up to its end; `opened` is where the bracket stands. -/
def setBody (opened : Nat) : Nat → Bool → Text → Except Failure (CharSet × Text)
  | 0, _, _ => .error ⟨.unterminatedSet, opened⟩
  | _ + 1, _, [] => .error ⟨.unterminatedSet, opened⟩
  | fuel + 1, first, c :: r =>
    if c == ']' && !first then .ok (.none, r)
    else do
      let (a, s) ← (setMember (c :: r)).mapError fun e =>
        if e.cause == .unterminatedSet then ⟨.unterminatedSet, opened⟩ else e
      let (here, s) : CharSet × Text ← match s with
        | '-' :: ']' :: t => .ok (CharSet.either (memberSet a) (.char '-'), ']' :: t)
        | '-' :: t => do
          let (b, u) ← (setMember t).mapError fun e =>
            if e.cause == .unterminatedSet then ⟨.unterminatedSet, opened⟩ else e
          match a, b with
          | .inr lo, .inr hi =>
            if hi.toNat < lo.toNat then
              .error ⟨.badRange [lo, '-', hi], (c :: r).length⟩
            else .ok (CharSet.range lo hi, u)
          | _, _ => .error ⟨.badRange "", (c :: r).length⟩
        | s => .ok (memberSet a, s)
      let (more, s) ← setBody opened fuel false s
      return (.either here more, s)

def setAfterBracket (r : Text) : Except Failure (CharSet × Text) :=
  let opened := r.length + 1
  match r with
  | '^' :: t => (setBody opened (t.length + 1) true t).map fun (s, u) => (.except s, u)
  | t => setBody opened (t.length + 1) true t

def number (s : Text) : Option Nat × Text :=
  let digits := s.takeWhile isAsciiDigit
  (if digits.isEmpty then none else some (Text.digitsValue digits), s.dropWhile isAsciiDigit)

def bounds? : Text → Except Failure (Option ((Nat × Option Nat) × Text))
  | '*' :: r => .ok (some ((0, none), r))
  | '+' :: r => .ok (some ((1, none), r))
  | '?' :: r => .ok (some ((0, some 1), r))
  | '\x7b' :: r =>
    let (lo, s) := number r
    match s with
    | '\x7d' :: t => .ok (lo.map fun n => ((n, some n), t))
    | ',' :: t =>
      let (hi, u) := number t
      match u with
      | '\x7d' :: v =>
        if hi.any (· < lo.getD 0) then .error ⟨.minOverMax, r.length⟩
        else .ok (some ((lo.getD 0, hi), v))
      | _ => .ok none
    | _ => .ok none
  | _ => .ok none

def quantified (item : Pattern) (repeatable : Bool) (s : Text) :
    Except Failure (Pattern × Text) := do
  match ← bounds? s with
  | none => return (item, s)
  | some ((min, max), r) =>
    if !repeatable then .error ⟨.nothingToRepeat, s.length⟩
    else
      let (greedy, t) := match r with
        | '?' :: t => (false, t)
        | t => (true, t)
      match ← bounds? t with
      | some _ => .error ⟨.multipleRepeat, t.length⟩
      | none => return (.rep greedy min max item, t)

mutual

/-- Alternatives up to the end of a group or of the text; `count` groups have been opened. -/
def alternatives : Nat → Nat → Text → Except Failure (Pattern × Nat × Text)
  | 0, _, s => .error ⟨.missingParenthesis, s.length⟩
  | fuel + 1, count, s => do
    let (p, count, r) ← sequence fuel count s
    match r with
    | '|' :: t => do
      let (q, count, u) ← alternatives fuel count t
      return (.alt p q, count, u)
    | r => return (p, count, r)

def sequence : Nat → Nat → Text → Except Failure (Pattern × Nat × Text)
  | 0, _, s => .error ⟨.missingParenthesis, s.length⟩
  | _ + 1, count, [] => .ok (.empty, count, [])
  | fuel + 1, count, c :: r =>
    if c == '|' || c == ')' then .ok (.empty, count, c :: r)
    else do
      let (item, repeatable, count, s) ← element fuel count c r
      let (p, t) ← quantified item repeatable s
      let (q, count, u) ← sequence fuel count t
      return (.seq p q, count, u)

def element : Nat → Nat → CodePoint → Text → Except Failure (Pattern × Bool × Nat × Text)
  | 0, _, _, r => .error ⟨.missingParenthesis, r.length⟩
  | fuel + 1, count, c, r =>
    if c == '.' then .ok (.set .any, true, count, r)
    else if c == '^' then .ok (.start, false, count, r)
    else if c == '$' then .ok (.finish, false, count, r)
    else if c == '[' then do
      let (s, t) ← setAfterBracket r
      return (.set s, true, count, t)
    else if c == '(' then
      let opened := r.length + 1
      let close (p : Pattern) (count : Nat) (s : Text) :
          Except Failure (Pattern × Bool × Nat × Text) :=
        match s with
        | ')' :: t => .ok (p, true, count, t)
        | _ => .error ⟨.missingParenthesis, opened⟩
      match r with
      | '?' :: ':' :: t => do
        let (p, count, u) ← alternatives fuel count t
        close p count u
      | '?' :: '!' :: t => do
        let (p, count, u) ← alternatives fuel count t
        close (.ahead false p) count u
      | '?' :: '=' :: t => do
        let (p, count, u) ← alternatives fuel count t
        close (.ahead true p) count u
      | '?' :: t => .error ⟨.unknownExtension ('?' :: t.take 1), t.length + 1⟩
      | t => do
        let (p, inner, u) ← alternatives fuel (count + 1) t
        close (.group (count + 1) p) inner u
    else if c == '\\' then
      match r with
      | [] => .error ⟨.danglingBackslash, 1⟩
      | 'A' :: t => .ok (.start, false, count, t)
      | d :: t => do
        let item ← escaped d (t.length + 2)
        return (.set (memberSet item), true, count, t)
    else if c == '*' || c == '+' || c == '?' then .error ⟨.nothingToRepeat, r.length + 1⟩
    else .ok (.set (.char c), true, count, r)

end

/-- Where a pattern is wrong; line and column are told where there are several lines. -/
def placeText (text : Text) (position : Nat) : Text :=
  let seen := text.take position
  let isFeed (c : CodePoint) : Bool := c == '\n'
  " at position " ++ natText position
    ++ if text.any isFeed then
        " (line " ++ natText ((seen.filter isFeed).length + 1) ++ ", column "
          ++ natText ((seen.reverse.takeWhile fun c => !isFeed c).length + 1) ++ ")"
      else ""

def parse (text : Text) : Except Text Pattern :=
  let complaint (e : Failure) : Text := e.cause.message ++ placeText text (text.length - e.left)
  match alternatives (3 * text.length + 3) 0 text with
  | .error e => .error (complaint e)
  | .ok (p, _, []) => .ok p
  | .ok (_, _, r) => .error (complaint ⟨.unbalancedParenthesis, r.length⟩)

end ViewLint.Pattern
