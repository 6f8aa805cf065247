import ViewLint.Store.Basic

/-!
# Names with wildcards

A wildcard name may hold `*`, `?` and sets of characters between brackets. A step `**` stands for any
number of directories. Names that start with a point are only found if the pattern asks for them.
-/

namespace ViewLint

inductive Wildcard where
  | char (c : CodePoint)
  | any
  | star
  | set (inverted : Bool) (ranges : List (CodePoint × CodePoint))

namespace Wildcard

def ranges : Text → List (CodePoint × CodePoint)
  | lo :: '-' :: hi :: rest => (lo, hi) :: ranges rest
  | c :: rest => (c, c) :: ranges rest
  | [] => []

/-- The inside of a set at the front of a text, after its opening bracket, and the rest. A closing
bracket at the very start belongs to the set. -/
def setBody? (s : Text) : Option (Bool × Text × Text) :=
  let (inverted, s) : Bool × Text := match s with
    | '!' :: r => (true, r)
    | r => (false, r)
  let (first, s) : Text × Text := match s with
    | ']' :: r => ("]", r)
    | r => ([], r)
  let body := s.takeWhile (· != .char ']')
  match s.drop body.length with
  | ']' :: rest => some (inverted, first ++ body, rest)
  | _ => none

def piecesFrom : Nat → Text → List Wildcard
  | 0, _ => []
  | _, [] => []
  | fuel + 1, '*' :: r => .star :: piecesFrom fuel r
  | fuel + 1, '?' :: r => .any :: piecesFrom fuel r
  | fuel + 1, '[' :: r =>
    match setBody? r with
    | some (inverted, body, rest) => .set inverted (ranges body) :: piecesFrom fuel rest
    | none => .char '[' :: piecesFrom fuel r
  | fuel + 1, c :: r => .char c :: piecesFrom fuel r

def pieces (pattern : Text) : List Wildcard := piecesFrom pattern.length pattern

def fits (c : CodePoint) : Wildcard → Bool
  | .char d => c == d
  | .any => true
  | .star => false
  | .set inverted ranges =>
    (ranges.any fun r => r.1.toNat ≤ c.toNat && c.toNat ≤ r.2.toNat) != inverted

def anyEnd (p : Text → Bool) : Text → Bool
  | [] => p []
  | c :: r => p (c :: r) || anyEnd p r

def matchesAll : List Wildcard → Text → Bool
  | [], s => s.isEmpty
  | .star :: ps, s => anyEnd (matchesAll ps) s
  | _ :: _, [] => false
  | p :: ps, c :: r => fits c p && matchesAll ps r

def accepts (pattern name : Text) : Bool := matchesAll (pieces pattern) name

def isWild (s : Text) : Bool := s.any fun c => c == '*' || c == '?' || c == '['

def listedDirectory (pattern : Text) : Text :=
  Text.join "/" ((Text.splitOn "/" pattern).takeWhile (!isWild ·))

def isHidden (name : Text) : Bool := Text.startsWith name "."

end Wildcard

namespace Store

/-- The names in the directory that a name leads to; only directories on request. An empty name
stands for the working directory. -/
def namesIn (s : Store) (cwd : Place) (directory : Text) (onlyDirectories : Bool) : List Text :=
  match s.locate cwd true (if directory.isEmpty then "." else directory) with
  | .ok (p, some (.directory _)) =>
    (s.list p).filter fun n => !onlyDirectories || match s.entry? (p ++ [n]) with
      | some (.directory _) => true
      | some (.link _) => s.isDirectory cwd (FileName.join directory n)
      | _ => false
  | _ => []

/-- The names below a directory that are not hidden, at any depth up to `depth`. -/
def namesBelow (s : Store) (cwd : Place) (onlyDirectories : Bool) : Nat → Text → List Text
  | 0, _ => []
  | depth + 1, directory =>
    ((s.namesIn cwd directory onlyDirectories).filter (!Wildcard.isHidden ·)).flatMap fun n =>
      n :: (s.namesBelow cwd onlyDirectories depth (FileName.join directory n)).map (FileName.join n)

/-- How deep a walk can go: between two links, every step leads to another directory. -/
def depthLimit (s : Store) : Nat := (linkLimit + 1) * (s.entries.length + 1)

def matchesIn (s : Store) (cwd : Place) (onlyDirectories : Bool) (directory step : Text) :
    List Text :=
  if step == "**" then "" :: s.namesBelow cwd onlyDirectories s.depthLimit directory
  else if Wildcard.isWild step then
    (s.namesIn cwd directory onlyDirectories).filter fun n =>
      (Wildcard.isHidden step || !Wildcard.isHidden n) && Wildcard.accepts step n
  else if step.isEmpty then if s.isDirectory cwd directory then [step] else []
  else if s.hasLink cwd (FileName.join directory step) then [step] else []

/-- The names that match a pattern, in the order of a walk; `depth` bounds the number of steps. -/
def globFrom (s : Store) (cwd : Place) : Nat → Bool → Text → List Text
  | 0, _, _ => []
  | depth + 1, onlyDirectories, pattern =>
    let (directory, step) := FileName.split pattern
    if !Wildcard.isWild pattern then
      if step.isEmpty then if s.isDirectory cwd directory then [pattern] else []
      else if s.hasLink cwd pattern then [pattern] else []
    else if directory.isEmpty then s.matchesIn cwd onlyDirectories "" step
    else
      let directories :=
        if directory != pattern && Wildcard.isWild directory then s.globFrom cwd depth true directory
        else [directory]
      directories.flatMap fun d => (s.matchesIn cwd onlyDirectories d step).map (FileName.join d)

def glob (s : Store) (cwd : Place) (pattern : Text) : List Text :=
  Text.sort ((s.globFrom cwd (pattern.length + 1) false pattern).filter (!·.isEmpty))

def globIn (s : Store) (cwd : Place) (directory step : Text) : List Text :=
  ((s.namesIn cwd directory false).filter (Wildcard.accepts step)).map (FileName.child directory)

/-- The names below a directory that match a single step, at any depth and hidden ones included;
links are not followed. -/
def globBelow (s : Store) (cwd : Place) (step : Text) : Nat → Text → List Text
  | 0, _ => []
  | depth + 1, directory =>
    s.globIn cwd directory step
      ++ ((s.namesIn cwd directory false).map (FileName.child directory)).flatMap fun d =>
        match s.locate cwd false d with
        | .ok (_, some (.directory _)) => s.globBelow cwd step depth d
        | _ => []

end Store

end ViewLint
