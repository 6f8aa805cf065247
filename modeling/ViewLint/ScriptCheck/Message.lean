import ViewLint.ScriptCheck.Combine
import ViewLint.Text.Lines

/-!
# Messages of the script checker

The script checker prints one message per line: a file, a line, a column, a code and a text. A message
belongs to the script that its line falls into.
-/

namespace ViewLint.ScriptCheck

structure Message where
  line : Text
  code : Text
  text : Text

def digits? (s : Text) : Option (Text × Text) :=
  let digits := s.takeWhile isDigit
  if digits.isEmpty then none else some (digits, s.drop digits.length)

def expect? (start : Text) (s : Text) : Option Text :=
  if start.isPrefixOf s then some (s.drop start.length) else none

def categories : List (CodePoint × Text) :=
  [('F', "Fatal"), ('E', "Error"), ('W', "Warning"), ('C', "Convention"), ('R', "Refactor")]

namespace Message

def here? (s : Text) : Option Message := do
  let (line, s) ← digits? (← expect? ":" s)
  let (_, s) ← digits? (← expect? ":" s)
  match ← expect? ": " s with
  | category :: s =>
    if !categories.any (·.1 == category) then none
    let (number, s) ← digits? s
    let text ← expect? ": " s
    if text.isEmpty then none
    else some ⟨line, category :: number, text⟩
  | [] => none

def last? : Text → Option Message
  | [] => none
  | c :: r =>
    match last? r with
    | some m => some m
    | none => here? (c :: r)

def parse? (line : Text) : Option Message := last? line

def category (m : Message) : CodePoint := m.code.headD 'E'

end Message

/-- A message about a script. The line counts from the header of the function. -/
structure Violation where
  category : CodePoint
  code : Text
  message : Text
  key : Text
  line : Int

def Violation.summary (v : Violation) : Text :=
  "Line " ++ intText v.line ++ ": " ++ v.message ++ " (" ++ v.code ++ ")"

inductive Reading where
  | nothing
  | violation (v : Violation)
  | unreadable (digits : Nat)

def readLine (owners : Owners) (keys : List Text) (line : Text) : Reading :=
  match Message.parse? line with
  | none => .nothing
  | some m =>
    if Json.digitLimit < m.line.length then .unreadable m.line.length
    else
      let number : Int := Text.digitsValue m.line
      match owners.ownerOf? number with
      | none => .nothing
      | some key =>
        if key.isEmpty || !keys.contains key then .nothing
        else .violation ⟨m.category, m.code, m.text, key,
          number - (owners.startOf? key).getD 0 + 1⟩

def trace (owners : Owners) (keys : List Text) (output : Text) : List (Text × Reading) :=
  (Text.lines output).map fun line => (line, readLine owners keys line)

end ViewLint.ScriptCheck
