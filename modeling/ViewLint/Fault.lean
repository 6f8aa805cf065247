import ViewLint.Json.Display
import ViewLint.Json.Parser
import ViewLint.Text.Encoding

/-!
# Faults

What can go wrong while a view, a rule or a file is handled. Each constructor is a cause; the wording
is in `Fault.message`.
-/

namespace ViewLint

inductive StorageError where
  | notFound (path : Text)
  | exists (path : Text)
  | isDirectory (path : Text)
  | notDirectory (path : Text)
  | nameTooLong (path : Text)
  | loop (path : Text)
  | notEmpty (path : Text)
  | reported (text : Text)
  deriving DecidableEq

def StorageError.message : StorageError → Text
  | .notFound path => "[Errno 2] No such file or directory: " ++ Text.quote path
  | .exists path => "[Errno 17] File exists: " ++ Text.quote path
  | .isDirectory path => "[Errno 21] Is a directory: " ++ Text.quote path
  | .notDirectory path => "[Errno 20] Not a directory: " ++ Text.quote path
  | .nameTooLong path => "[Errno 36] File name too long: " ++ Text.quote path
  | .loop path => "[Errno 40] Too many levels of symbolic links: " ++ Text.quote path
  | .notEmpty path => "[Errno 39] Directory not empty: " ++ Text.quote path
  | .reported text => text

inductive Fault where
  | noMember (kind member : Text)
  | badKind (text : Text)
  | missingKey (key : Json)
  | outOfRange
  | badValue (text : Text)
  | badPattern (text : Text)
  | badJson (error : Json.ParseError)
  | badRule (text : Text)
  | storage (error : StorageError)
  | notInstalled (text : Text)
  | unencodable (run : HalfRun)
  | overflow (cause : Overflow)
  | linkLoop (path : Text)

namespace Fault

def message : Fault → Text
  | .noMember kind member => "'" ++ kind ++ "' object has no attribute '" ++ member ++ "'"
  | .badKind text => text
  | .missingKey key => key.quoted
  | .outOfRange => "list index out of range"
  | .badValue text => text
  | .badPattern text => text
  | .badJson error => error.message
  | .badRule text => text
  | .storage error => error.message
  | .notInstalled text => text
  | .unencodable run => run.message
  | .overflow cause => cause.message
  | .linkLoop path => "Symlink loop from " ++ Text.quote path

def lacks (v : Json) (member : Text) : Fault := .noMember v.kindName member

end Fault

def writtenInt (n : Int) : Except Fault Text :=
  if Nat.pow 10 Json.digitLimit ≤ n.natAbs then .error (.badValue Json.writtenLimitMessage)
  else .ok (intText n)

namespace Json

def noKey (v : Json) : Fault := .badKind ("unhashable type: '" ++ v.kindName ++ "'")

/-- The parts of a value that can be gone through: the items of an array, the characters of a string,
or the keys of an object. -/
def parts (v : Json) : Except Fault (List Json) :=
  match v with
  | .arr items => .ok items
  | .str s => .ok (s.map fun c => .str [c])
  | .obj _ fields => .ok (fields.map (·.1.toJson))
  | other => .error (.badKind ("'" ++ other.kindName ++ "' object is not iterable"))

def lookupKey (v : Json) : Except Fault Json := if v.isContainer then .error v.noKey else .ok v

end Json

end ViewLint
