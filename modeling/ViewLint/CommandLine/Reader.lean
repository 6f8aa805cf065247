import ViewLint.Text.Digits
import ViewLint.Text.Quote
import ViewLint.Text.Search

/-!
# Reading command lines

A command line is a list of words. Options are known by their names and take values; a long name may
be cut short as long as only one option fits. Words that belong to no option are operands. They are
taken from one place only: once some have been taken, later ones are left over.
-/

namespace ViewLint.CommandLine

inductive Arity where
  | none
  | one
  | any
  | some
  deriving DecidableEq

structure Opt where
  names : List Text
  arity : Arity := .none
  final : Bool := false
  deriving DecidableEq

def Opt.name (o : Opt) : Text := o.names.headD ""

inductive Ending where
  | refused (complaint : Text)
  | asked (name : Text)
  deriving DecidableEq

def Opt.refuse (o : Opt) (complaint : Text) : Ending :=
  .refused ("argument " ++ Text.join "/" o.names ++ ": " ++ complaint)

/-! ## Words -/

inductive Word where
  | plain (text : Text)
  /-- An option, the name that it was found by, and a value that stands in the same word. -/
  | option (opt : Opt) (name : Text) (value : Option Text)
  /-- Something that looks like an option but is none. -/
  | unknown (text : Text)
  | divider
  deriving DecidableEq

def Word.plain? : Word → Option Text
  | .plain text => some text
  | _ => none

def nameTable (opts : List Opt) : List (Text × Opt) := opts.flatMap fun o => o.names.map (·, o)

def find? (opts : List Opt) (name : Text) : Option Opt :=
  ((nameTable opts).find? (·.1 == name)).map (·.2)

def cutValue (text : Text) : Text × Option Text :=
  match Text.cut? "=" text with
  | some (name, value) => (name, some value)
  | none => (text, none)

/-- The options that a word may stand for: a long name cut short, or a short name with a value right
after it. -/
def candidates (opts : List Opt) (text : Text) : List Word :=
  if Text.startsWith text "--" then
    let (start, value) := cutValue text
    ((nameTable opts).filter fun (name, _) => Text.startsWith name start).map fun (name, o) =>
      .option o name value
  else
    (nameTable opts).filterMap fun (name, o) =>
      if name == text.take 2 then some (.option o name (some (text.drop 2)))
      else if Text.startsWith name text then some (.option o name none)
      else none

def Word.name : Word → Text
  | .option _ name _ => name
  | _ => ""

/-- Whether digits are all that a text holds, a line break at its end apart. -/
def isNegativeNumber (text : Text) : Bool :=
  let body := text.drop 1
  let body := if body.getLast? == some '\n' then body.dropLast else body
  let (whole, rest) := (body.takeWhile isDigit, body.dropWhile isDigit)
  Text.startsWith text "-" && match rest with
    | [] => !whole.isEmpty
    | '.' :: places => !places.isEmpty && places.all isDigit
    | _ => false

def classifyWord (opts : List Opt) (text : Text) : Except Ending Word :=
  if !Text.startsWith text "-" then .ok (.plain text)
  else match find? opts text with
    | some o => .ok (.option o text none)
    | none =>
      if text == "-" then .ok (.plain text)
      else
        let (name, value) := cutValue text
        match value, find? opts name with
        | some value, some o => .ok (.option o name (some value))
        | _, _ =>
          match candidates opts text with
          | [word] => .ok word
          | first :: second :: more =>
            .error (.refused ("ambiguous option: " ++ text ++ " could match "
              ++ Text.join ", " ((first :: second :: more).map Word.name)))
          | [] =>
            if isNegativeNumber text || Text.holds text " " then .ok (.plain text)
            else .ok (.unknown text)

def classify (opts : List Opt) : List Text → Except Ending (List Word)
  | [] => .ok []
  | text :: rest =>
    if text == "--" then .ok (.divider :: rest.map .plain)
    else do
      let word ← classifyWord opts text
      return word :: (← classify opts rest)

/-! ## Options and their values -/

abbrev Setting := Text × List Text

/-- The values that an option takes from the words after it, and the words that are left. -/
def takeValues (o : Opt) (rest : List Word) : Except Ending (List Text × List Word) :=
  let values := (rest.map Word.plain?).takeWhile Option.isSome |>.filterMap id
  match o.arity, values with
  | .none, _ => .ok ([], rest)
  | .one, value :: _ => .ok ([value], rest.drop 1)
  | .one, [] => .error (o.refuse "expected one argument")
  | .any, values => .ok (values, rest.drop values.length)
  | .some, [] => .error (o.refuse "expected at least one argument")
  | .some, values => .ok (values, rest.drop values.length)

/-- What a word with a value of its own stands for: options with their values, and the words that are
left. The value of a short option that takes none is further short options. -/
def settle (opts : List Opt) (o : Opt) (name : Text) : Text → List Word →
    Except Ending (List (Opt × List Text) × List Word)
  | value, rest =>
    let refusal := o.refuse ("ignored explicit argument " ++ Text.quote value)
    if o.arity != .none then .ok ([(o, [value])], rest)
    else match value with
      | [] => .error refusal
      | c :: more =>
        if Text.startsWith name "--" then .error refusal
        else match find? opts [.char '-', c] with
          | none => .error refusal
          | some next => match more with
            | [] => do
              let (values, rest) ← takeValues next rest
              return ([(o, []), (next, values)], rest)
            | d :: tail => do
              let (settings, rest) ← settle opts next [.char '-', c] (d :: tail) rest
              return ((o, []) :: settings, rest)

def takeOption (opts : List Opt) (o : Opt) (name : Text) (value : Option Text) (rest : List Word) :
    Except Ending (List (Opt × List Text) × List Word) :=
  match value with
  | some value => settle opts o name value rest
  | none => do
    let (values, rest) ← takeValues o rest
    return ([(o, values)], rest)

/-! ## Reading -/

structure Reading where
  settings : List Setting := []
  operands : Option (List Text) := none
  left : List Text := []

def Reading.apply (r : Reading) : List (Opt × List Text) → Except Ending Reading
  | [] => .ok r
  | (o, values) :: rest =>
    if o.final then .error (.asked o.name)
    else Reading.apply { r with settings := r.settings ++ [(o.name, values)] } rest

def Reading.operate (r : Reading) (texts : List Text) : Reading :=
  match r.operands with
  | none => { r with operands := some (texts.erase "--") }
  | some _ => { r with left := r.left ++ texts }

def operandTexts (words : List Word) : List Text :=
  words.filterMap fun
    | .plain text => some text
    | .divider => some "--"
    | _ => none

def isOperand : Word → Bool
  | .plain _ | .divider => true
  | _ => false

/-- Reads words; `fuel` bounds their number. -/
def readWords (opts : List Opt) : Nat → Reading → List Word → Except Ending Reading
  | 0, r, _ => .ok r
  | _ + 1, r, [] => .ok r
  | fuel + 1, r, .unknown text :: rest =>
    readWords opts fuel { r with left := r.left ++ [text] } rest
  | fuel + 1, r, .option o name value :: rest => do
    let (settings, rest) ← takeOption opts o name value rest
    readWords opts fuel (← r.apply settings) rest
  | fuel + 1, r, words =>
    readWords opts fuel (r.operate (operandTexts (words.takeWhile isOperand)))
      (words.dropWhile isOperand)

def read (opts : List Opt) (args : List Text) : Except Ending (List Setting × List Text) := do
  let words ← classify opts args
  let r ← readWords opts (words.length + 1) {} words
  if r.left.isEmpty then return (r.settings, r.operands.getD [])
  .error (.refused ("unrecognized arguments: " ++ Text.join " " r.left))

/-! ## Settings -/

def isSet (settings : List Setting) (name : Text) : Bool := settings.any (·.1 == name)

def valuesOf? (settings : List Setting) (name : Text) : Option (List Text) :=
  (settings.reverse.find? (·.1 == name)).map (·.2)

def valueOf? (settings : List Setting) (name : Text) : Option Text :=
  (valuesOf? settings name).bind List.head?

end ViewLint.CommandLine
