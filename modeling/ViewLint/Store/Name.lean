import ViewLint.Text.Search

/-!
# Names of files

A name is a text of steps with slashes between them. Names are only texts here; what stands at a name
is for the store to tell.
-/

namespace ViewLint.FileName

def isAbsolute (name : Text) : Bool := Text.startsWith name "/"

def root (name : Text) : Text :=
  if Text.startsWith name "///" then "/"
  else if Text.startsWith name "//" then "//"
  else if Text.startsWith name "/" then "/"
  else ""

def steps (name : Text) : List Text :=
  (Text.splitOn "/" name).filter fun s => s != "" && s != "."

def ofSteps (root : Text) (steps : List Text) : Text :=
  if root.isEmpty && steps.isEmpty then "." else root ++ Text.join "/" steps

def tidy (name : Text) : Text := ofSteps (root name) (steps name)

def parent (name : Text) : Text := ofSteps (root name) (steps name).dropLast

def last (name : Text) : Text := (steps name).getLast?.getD ""

/-- The last step, cut before its last point, unless the point is its first or last character. -/
def stemAndSuffix (name : Text) : Text × Text :=
  match Text.rcut? "." (last name) with
  | some (stem, suffix) =>
    if stem == "" || suffix == "" then (last name, "") else (stem, "." ++ suffix)
  | none => (last name, "")

def stem (name : Text) : Text := (stemAndSuffix name).1

def suffix (name : Text) : Text := (stemAndSuffix name).2

def child (directory name : Text) : Text :=
  ofSteps (root directory) (steps directory ++ steps name)

def join (directory name : Text) : Text :=
  if isAbsolute name || directory == "" then name
  else if Text.endsWith directory "/" then directory ++ name
  else directory ++ "/" ++ name

def dropSlashes (s : Text) : Text :=
  (s.reverse.dropWhile (· == .char '/')).reverse

/-- A name cut at its last slash, as plain texts. Slashes at the end of the first part go, unless
there is nothing else. -/
def split (name : Text) : Text × Text :=
  match Text.rcut? "/" name with
  | none => ("", name)
  | some (front, last) =>
    let head := dropSlashes front
    (if head == "" then front ++ "/" else head, last)

end ViewLint.FileName
