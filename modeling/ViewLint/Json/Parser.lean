import ViewLint.Json.Basic

/-!
# Reading JSON

A reader that keeps the order of fields and says where a text goes wrong. `NaN`, `Infinity` and
`-Infinity` are numbers. A key that is written twice keeps its first place and takes the last value.
-/

namespace ViewLint.Json

inductive Cause where
  | expectingValue
  | extraData
  | expectingName
  | expectingColon
  | expectingComma
  | unterminated
  | badEscape
  | badUnicode
  | controlCharacter
  | byteOrderMark
  | tooManyDigits (count : Nat)
  deriving DecidableEq

structure Failure where
  cause : Cause
  left : Nat
  deriving DecidableEq

def skipBlanks (s : Text) : Text :=
  s.dropWhile fun c => c == ' ' || c == '\t' || c == '\n' || c == '\r'

/-! ## Strings -/

def hexValue? (c : CodePoint) : Option Nat :=
  let n := c.toNat
  if 48 ≤ n && n ≤ 57 then some (n - 48)
  else if 97 ≤ n && n ≤ 102 then some (n - 87)
  else if 65 ≤ n && n ≤ 70 then some (n - 55)
  else none

/-- The number that four hexadecimal digits write, if more text follows them. -/
def hex4? : Text → Option Nat
  | a :: b :: c :: d :: _ :: _ => do
    let a ← hexValue? a
    let b ← hexValue? b
    let c ← hexValue? c
    let d ← hexValue? d
    some (((a * 16 + b) * 16 + c) * 16 + d)
  | _ => none

def isHighSurrogate (n : Nat) : Bool := 0xD800 ≤ n && n ≤ 0xDBFF

def isLowSurrogate (n : Nat) : Bool := 0xDC00 ≤ n && n ≤ 0xDFFF

/-- The code point that an escape of the form `uXXXX` writes and its length; `s` is what follows the
`u`. A half without its partner stands for itself. -/
def unicodeEscape (s : Text) : Except Failure (CodePoint × Nat) :=
  match hex4? s with
  | none => .error ⟨.badUnicode, s.length + 1⟩
  | some n =>
    if isHighSurrogate n then
      match s.drop 4 with
      | '\\' :: 'u' :: t =>
        if t.length < 5 then .ok (CodePoint.ofNat n, 5)
        else match hex4? t with
          | none => .error ⟨.badUnicode, t.length + 1⟩
          | some m =>
            if isLowSurrogate m then
              .ok (CodePoint.ofNat (0x10000 + (n - 0xD800) * 0x400 + (m - 0xDC00)), 11)
            else .ok (CodePoint.ofNat n, 5)
      | _ => .ok (CodePoint.ofNat n, 5)
    else .ok (CodePoint.ofNat n, 5)

/-- The character that an escape writes and its length without the backslash; `start` is where an
unfinished string is reported. -/
def escape (start : Nat) : Text → Except Failure (CodePoint × Nat)
  | [] => .error ⟨.unterminated, start⟩
  | c :: r =>
    if c == 'u' then unicodeEscape r
    else if c == '"' || c == '\\' || c == '/' then .ok (c, 1)
    else if c == 'b' then .ok (CodePoint.ofNat 8, 1)
    else if c == 'f' then .ok (CodePoint.ofNat 12, 1)
    else if c == 'n' then .ok ('\n', 1)
    else if c == 'r' then .ok ('\r', 1)
    else if c == 't' then .ok ('\t', 1)
    else .error ⟨.badEscape, r.length + 2⟩

/-- The text up to the closing quote, the first `skip` characters left out, and the rest. -/
def stringBody (start : Nat) : Nat → Text → Except Failure (Text × Text)
  | _, [] => .error ⟨.unterminated, start⟩
  | skip + 1, _ :: r => stringBody start skip r
  | 0, c :: r =>
    if c == '"' then .ok ([], r)
    else if c == '\\' then
      match escape start r with
      | .error e => .error e
      | .ok (d, k) => match stringBody start k r with
        | .error e => .error e
        | .ok (s, rest) => .ok (d :: s, rest)
    else if c.toNat < 32 then .error ⟨.controlCharacter, r.length + 1⟩
    else match stringBody start 0 r with
      | .error e => .error e
      | .ok (s, rest) => .ok (c :: s, rest)

def stringAfterQuote (r : Text) : Except Failure (Text × Text) :=
  stringBody (r.length + 1) 0 r

/-! ## Numbers -/

def isDigitChar (c : CodePoint) : Bool := 48 ≤ c.toNat && c.toNat ≤ 57

def digitsValue (s : Text) : Nat := s.foldl (fun n c => n * 10 + (c.toNat - 48)) 0

def wholePart? : Text → Option (Text × Text)
  | [] => none
  | c :: r =>
    if c == '0' then some ([c], r)
    else if isDigitChar c then some (c :: r.takeWhile isDigitChar, r.dropWhile isDigitChar)
    else none

def fractionPart : Text → Text × Text
  | '.' :: c :: r =>
    if isDigitChar c then (c :: r.takeWhile isDigitChar, r.dropWhile isDigitChar)
    else ([], '.' :: c :: r)
  | s => ([], s)

def exponentPart : Text → Option Int × Text
  | [] => (none, [])
  | e :: r =>
    if e == 'e' || e == 'E' then
      let negative := r.head? == some '-'
      let t := if negative || r.head? == some '+' then r.drop 1 else r
      let digits := t.takeWhile isDigitChar
      if digits.isEmpty then (none, e :: r)
      else
        let n : Int := digitsValue digits
        (some (if negative then -n else n), t.dropWhile isDigitChar)
    else (none, e :: r)

def digitLimit : Nat := 4300

def unsigned (negative : Bool) (s : Text) : Option (Except Failure (Json × Text)) :=
  (wholePart? s).map fun (whole, r) =>
    let (fraction, r) := fractionPart r
    let (exponent, r) := exponentPart r
    if fraction.isEmpty && exponent.isNone then
      if digitLimit < whole.length then .error ⟨.tooManyDigits whole.length, s.length⟩
      else
        let n : Int := digitsValue whole
        .ok (.int (if negative then -n else n), r)
    else
      .ok (.float (Binary64.ofDecimal negative (digitsValue (whole ++ fraction))
        (exponent.getD 0 - fraction.length)), r)

def word? (s : Text) : Option (Json × Text) :=
  let words : List (Text × Json) :=
    [("null", .null), ("true", .bool true), ("false", .bool false), ("NaN", .float .nan),
      ("Infinity", .float (.infinite false)), ("-Infinity", .float (.infinite true))]
  (words.find? fun w => w.1.isPrefixOf s).map fun w => (w.2, s.drop w.1.length)

def atom (s : Text) : Except Failure (Json × Text) :=
  match word? s with
  | some r => .ok r
  | none =>
    let number := match s with
      | '-' :: r => unsigned true r
      | _ => unsigned false s
    number.getD (.error ⟨.expectingValue, s.length⟩)

/-! ## Values -/

mutual

/-- A value at the front of a text; the fuel bounds the number of steps. -/
def value : Nat → Text → Except Failure (Json × Text)
  | 0, s => .error ⟨.expectingValue, s.length⟩
  | _ + 1, [] => .error ⟨.expectingValue, 0⟩
  | fuel + 1, c :: r =>
    if c == '"' then
      match stringAfterQuote r with
      | .error e => .error e
      | .ok (s, rest) => .ok (.str s, rest)
    else if c == '[' then
      match skipBlanks r with
      | ']' :: rest => .ok (.arr [], rest)
      | t => match items fuel t with
        | .error e => .error e
        | .ok (xs, rest) => .ok (.arr xs, rest)
    else if c == '\x7b' then
      match skipBlanks r with
      | '\x7d' :: rest => .ok (.object [], rest)
      | t => match members fuel t with
        | .error e => .error e
        | .ok (fs, rest) => .ok (.object (Fields.ofPairs fs), rest)
    else atom (c :: r)

def items : Nat → Text → Except Failure (List Json × Text)
  | 0, s => .error ⟨.expectingValue, s.length⟩
  | fuel + 1, s =>
    match value fuel s with
    | .error e => .error e
    | .ok (v, r) =>
      match skipBlanks r with
      | ']' :: rest => .ok ([v], rest)
      | ',' :: t => match items fuel (skipBlanks t) with
        | .error e => .error e
        | .ok (vs, rest) => .ok (v :: vs, rest)
      | t => .error ⟨.expectingComma, t.length⟩

def members : Nat → Text → Except Failure (List (Text × Json) × Text)
  | 0, s => .error ⟨.expectingName, s.length⟩
  | fuel + 1, '"' :: s =>
    match stringAfterQuote s with
    | .error e => .error e
    | .ok (key, r) =>
      match skipBlanks r with
      | ':' :: t =>
        match value fuel (skipBlanks t) with
        | .error e => .error e
        | .ok (v, r) =>
          match skipBlanks r with
          | '\x7d' :: rest => .ok ([(key, v)], rest)
          | ',' :: t => match members fuel (skipBlanks t) with
            | .error e => .error e
            | .ok (fs, rest) => .ok ((key, v) :: fs, rest)
          | t => .error ⟨.expectingComma, t.length⟩
      | t => .error ⟨.expectingColon, t.length⟩
  | _ + 1, s => .error ⟨.expectingName, s.length⟩

end

/-! ## Whole texts -/

structure ParseError where
  cause : Cause
  offset : Nat
  line : Nat
  column : Nat
  deriving DecidableEq

def Failure.at (s : Text) (e : Failure) : ParseError :=
  let offset := s.length - e.left
  let seen := s.take offset
  let lines := seen.filter (· == .char '\n')
  let column := (seen.reverse.takeWhile fun c => c != .char '\n').length + 1
  ⟨e.cause, offset, lines.length + 1, column⟩

def parseText (s : Text) : Except Failure Json :=
  if s.head? == some (CodePoint.ofNat 0xFEFF) then .error ⟨.byteOrderMark, s.length⟩
  else
    match value (2 * s.length + 2) (skipBlanks s) with
    | .error e => .error e
    | .ok (v, r) => match skipBlanks r with
      | [] => .ok v
      | t => .error ⟨.extraData, t.length⟩

def parse (text : Text) : Except ParseError Json :=
  match parseText text with
  | .ok v => .ok v
  | .error e => .error (e.at text)

def writtenLimitMessage : Text :=
  "Exceeds the limit (" ++ natText digitLimit ++ " digits) for integer string conversion; "
    ++ "use sys.set_int_max_str_digits() to increase the limit"

def digitLimitMessage (count : Nat) : Text :=
  "Exceeds the limit (" ++ natText digitLimit ++ " digits) for integer string conversion: value has "
    ++ natText count ++ " digits; use sys.set_int_max_str_digits() to increase the limit"

def Cause.message : Cause → Text
  | .expectingValue => "Expecting value"
  | .extraData => "Extra data"
  | .expectingName => "Expecting property name enclosed in double quotes"
  | .expectingColon => "Expecting ':' delimiter"
  | .expectingComma => "Expecting ',' delimiter"
  | .unterminated => "Unterminated string starting at"
  | .badEscape => "Invalid \\escape"
  | .badUnicode => "Invalid \\uXXXX escape"
  | .controlCharacter => "Invalid control character at"
  | .byteOrderMark => "Unexpected UTF-8 BOM (decode using utf-8-sig)"
  | .tooManyDigits count => digitLimitMessage count

def ParseError.message (e : ParseError) : Text :=
  match e.cause with
  | .tooManyDigits count => digitLimitMessage count
  | cause => cause.message ++ ": line " ++ natText e.line ++ " column " ++ natText e.column
      ++ " (char " ++ natText e.offset ++ ")"

end ViewLint.Json
