import ViewLint.Fault
import ViewLint.Store.Name
import ViewLint.Text.Lines

/-!
# Files and directories

A store holds files, directories and links by their place, which is the list of steps from the root.
-/

namespace ViewLint

abbrev Place := List Text

def Place.name (p : Place) : Text := "/" ++ Text.join "/" p

/-- What stands at a place. The age is in seconds and negative for what has just been written. -/
inductive Entry where
  | file (text : Text) (age : Binary64)
  | directory (age : Binary64)
  | link (target : Text)

structure Store where
  entries : List (Place × Entry) := []

namespace Store

/-- What stands at a place, links not followed. The root is a directory. -/
def entry? (s : Store) (p : Place) : Option Entry :=
  if p.isEmpty then some (.directory (.zero false)) else Fields.get? s.entries p

def put (s : Store) (p : Place) (e : Entry) : Store := ⟨Fields.insert s.entries p e⟩

def drop (s : Store) (p : Place) : Store := ⟨Fields.erase s.entries p⟩

/-! ## Walking -/

inductive Trouble where
  | missing
  | notDirectory
  | loop
  | tooLong

def Trouble.error (name : Text) : Trouble → StorageError
  | .missing => .notFound name
  | .notDirectory => .notDirectory name
  | .loop => .loop name
  | .tooLong => .nameTooLong name

/-- The steps of a name as a walk takes them: a slash at the end asks for a directory. -/
def walkSteps (name : Text) : List Text :=
  let steps := (Text.splitOn "/" name).filter (!·.isEmpty)
  if Text.endsWith name "/" then steps.concat "." else steps

def linkLimit : Nat := 40

def stepLimit : Nat := 255

def nameLimit : Nat := 4095

/-- Walks from a place up to a link that is to be passed, and from there as `beyond` tells. The last
step may lead to nothing; a link there is passed on request. -/
def walkTo (s : Store) (follow : Bool)
    (beyond : Place → List Text → Except Trouble (Place × Option Entry)) :
    Place → List Text → Except Trouble (Place × Option Entry)
  | here, [] => .ok (here, s.entry? here)
  | here, step :: rest =>
    match s.entry? here with
    | some (.directory _) =>
      if step == "." then walkTo s follow beyond here rest
      else if step == ".." then walkTo s follow beyond here.dropLast rest
      else if stepLimit < Text.encodedSize step then .error .tooLong
      else
        match s.entry? (here ++ [step]) with
        | none => if rest.isEmpty then .ok (here ++ [step], none) else .error .missing
        | some (.link target) =>
          if rest.isEmpty && !follow then .ok (here ++ [step], some (.link target))
          else beyond (if FileName.isAbsolute target then [] else here) (walkSteps target ++ rest)
        | some _ => walkTo s follow beyond (here ++ [step]) rest
    | some _ => .error .notDirectory
    | none => .error .missing

def walk (s : Store) (follow : Bool) : Nat → Place → List Text → Except Trouble (Place × Option Entry)
  | 0 => s.walkTo follow fun _ _ => .error .loop
  | links + 1 => s.walkTo follow (s.walk follow links)

def locate (s : Store) (cwd : Place) (follow : Bool) (name : Text) :
    Except Trouble (Place × Option Entry) :=
  if name.isEmpty then .error .missing
  else if nameLimit < Text.encodedSize name then .error .tooLong
  else s.walk follow linkLimit (if FileName.isAbsolute name then [] else cwd) (walkSteps name)

def find? (s : Store) (cwd : Place) (name : Text) : Option Entry :=
  match s.locate cwd true name with
  | .ok (_, e) => e
  | .error _ => none

def has (s : Store) (cwd : Place) (name : Text) : Bool := (s.find? cwd name).isSome

def hasLink (s : Store) (cwd : Place) (name : Text) : Bool :=
  match s.locate cwd false name with
  | .ok (_, e) => e.isSome
  | .error _ => false

def isDirectory (s : Store) (cwd : Place) (name : Text) : Bool :=
  match s.find? cwd name with
  | some (.directory _) => true
  | _ => false

def age? (s : Store) (cwd : Place) (name : Text) : Option Binary64 :=
  match s.find? cwd name with
  | some (.file _ age) | some (.directory age) => some age
  | _ => none

def checkName (name : Text) : Except Fault Unit :=
  match Text.nameHalves? name with
  | some run => .error (.unencodable run)
  | none => if name.contains (.char '\x00') then .error (.badValue "embedded null byte") else .ok ()

def append (here : Place) (steps : List Text) : Place :=
  steps.foldl (fun p (step : Text) =>
    if step == "." then p else if step == ".." then p.dropLast else p ++ [step]) here

/-- Resolves steps from a place: links are followed as `inside` tells, and what is missing is taken as
it is. The links that are being followed are `opened`; one of them met again leads back to itself, and
is left with all that follows it. -/
def resolveWith (s : Store) (inside : Place → Place → List Text → Except Place Place)
    (opened : List Place) : Place → List Text → Except Place Place
  | here, [] => .ok here
  | here, step :: rest =>
    if step == "." then resolveWith s inside opened here rest
    else if step == ".." then resolveWith s inside opened here.dropLast rest
    else
      let next := here ++ [step]
      match s.entry? next with
      | some (.link target) =>
        if opened.contains next then .error (append next rest)
        else
          let start := if FileName.isAbsolute target then [] else here
          match inside next start (FileName.steps target) with
          | .ok p => resolveWith s inside opened p rest
          | .error p => .error (append p rest)
      | _ => resolveWith s inside opened next rest

/-- Resolves steps from a place. `depth` bounds how many links are followed inside each other. -/
def resolveFrom (s : Store) : Nat → List Place → Place → List Text → Except Place Place
  | 0, opened => s.resolveWith (fun link _ _ => .error link) opened
  | depth + 1, opened => s.resolveWith (fun link => s.resolveFrom depth (link :: opened)) opened

def resolve (s : Store) (cwd : Place) (name : Text) : Except Fault Place := do
  checkName name
  let start := if FileName.isAbsolute name then [] else cwd
  (s.resolveFrom s.entries.length [] start (FileName.steps name)).mapError fun p => .linkLoop p.name

/-! ## Files -/

def read (s : Store) (cwd : Place) (name : Text) : Except Fault Text := do
  checkName name
  match s.locate cwd true name with
  | .ok (_, some (.file text _)) => return Text.normalizeBreaks text
  | .ok (_, some (.directory _)) => .error (.storage (.isDirectory name))
  | .ok _ => .error (.storage (.notFound name))
  | .error t => .error (.storage (t.error name))

def freshAge : Binary64 := .ofInt (-1)

/-- A store in which a file has been written piece by piece, together with the refusal if there was
one. A piece that cannot be encoded ends the writing; what was written before stays. -/
def write (s : Store) (cwd : Place) (name : Text) (pieces : List Text) :
    Store × Except Fault Unit :=
  match checkName name with
  | .error e => (s, .error e)
  | .ok () =>
    match s.locate cwd true name with
    | .ok (_, some (.directory _)) => (s, .error (.storage (.isDirectory name)))
    | .ok (p, _) =>
      (s.put p (.file (pieces.takeWhile Text.isEncodable).flatten freshAge),
        match pieces.findSome? Text.halves? with
        | some run => .error (.unencodable run)
        | none => .ok ())
    | .error t => (s, .error (.storage (t.error name)))

def remove (s : Store) (cwd : Place) (name : Text) : Except Fault Store := do
  checkName name
  match s.locate cwd false name with
  | .ok (_, some (.directory _)) => .error (.storage (.isDirectory name))
  | .ok (p, some _) => return s.drop p
  | .ok (_, none) => .error (.storage (.notFound name))
  | .error t => .error (.storage (t.error name))

def removeTree (s : Store) (cwd : Place) (name : Text) : Except Fault Store := do
  checkName name
  match s.locate cwd false name with
  | .ok (p, some (.directory _)) => return ⟨s.entries.filter fun e => !p.isPrefixOf e.1⟩
  | .ok (_, some (.link _)) =>
    .error (.storage (.reported "Cannot call rmtree on a symbolic link"))
  | .ok (_, some (.file _ _)) => .error (.storage (.notDirectory name))
  | .ok (_, none) => .error (.storage (.notFound name))
  | .error t => .error (.storage (t.error name))

/-! ## Directories -/

def list (s : Store) (p : Place) : List Text :=
  Text.sort (s.entries.filterMap fun (q, _) => if q.dropLast == p then q.getLast? else none)

def listAt (s : Store) (cwd : Place) (name : Text) : Except Fault (List Text) := do
  checkName name
  match s.locate cwd true name with
  | .ok (p, some (.directory _)) => return s.list p
  | .ok (_, some _) => .error (.storage (.notDirectory name))
  | .ok (_, none) => .error (.storage (.notFound name))
  | .error t => .error (.storage (t.error name))

def makeDirectory (s : Store) (cwd : Place) (name : Text) : Except StorageError Store :=
  match s.locate cwd false name with
  | .ok (_, some _) => .error (.exists name)
  | .ok (p, none) => .ok (s.put p (.directory freshAge))
  | .error t => .error (t.error name)

def ensureDirectory (s : Store) (cwd : Place) (name : Text) : Except StorageError Store :=
  match s.makeDirectory cwd name with
  | .ok s => .ok s
  | .error e => if s.isDirectory cwd name then .ok s else .error e

/-- A store with a directory and the directories above it, which are only made where the first try
misses them. `depth` bounds the number of directories. -/
def makeAbove (cwd : Place) : Nat → Store → Text → Except StorageError Store
  | 0, s, name => s.ensureDirectory cwd name
  | depth + 1, s, name =>
    match s.makeDirectory cwd name with
    | .ok s => .ok s
    | .error (.notFound missing) =>
      if FileName.parent name == name then .error (.notFound missing)
      else match makeAbove cwd depth s (FileName.parent name) with
        | .ok s => s.ensureDirectory cwd name
        | .error e => .error e
    | .error e => if s.isDirectory cwd name then .ok s else .error e

def makeDirectories (s : Store) (cwd : Place) (name : Text) : Except Fault Store := do
  checkName name
  match makeAbove cwd (FileName.steps name).length s name with
  | .ok s => return s
  | .error e => .error (.storage e)

def makeFromAbove (cwd : Place) : Nat → Store → Text → Except StorageError Store
  | 0, s, name => s.ensureDirectory cwd name
  | depth + 1, s, name =>
    let (head, last) := FileName.split (FileName.dropSlashes name)
    let above : Except StorageError Store :=
      if head.isEmpty || last.isEmpty || s.has cwd head then .ok s
      else match makeFromAbove cwd depth s head with
        | .error (.exists _) => .ok s
        | r => r
    match above with
    | .error e => .error e
    | .ok s => s.ensureDirectory cwd name

/-- A store with a directory and all directories above it; a refusal names the first that could not
be made. -/
def makeTree (s : Store) (cwd : Place) (name : Text) : Except Fault Store := do
  checkName name
  match makeFromAbove cwd name.length s name with
  | .ok s => return s
  | .error e => .error (.storage e)

end Store

end ViewLint
