import ViewLint.Proofs.Fields
import ViewLint.Store.Glob

/-!
# Stores up to the texts of files

Where a name leads to, what matches a pattern and which place a name stands for does not depend on the texts of the
files.

* `Store.blank`: a store in which all files are empty.
* **`Store.globFrom_blank`**, **`Store.resolve_blank`**: what stays when all files are emptied.
-/

namespace ViewLint

open List Option Fields

/-- An entry, with the text and the age of a file left out. -/
def Entry.blank : Entry → Entry
  | .file _ _ => .file [] (.zero false)
  | .directory age => .directory age
  | .link target => .link target

namespace Store

def blank (s : Store) : Store := ⟨s.entries.map fun e => (e.1, e.2.blank)⟩

variable (s : Store)

/-! ## Entries -/

theorem entry?_blank (p : Place) : Store.entry? s.blank p = (s.entry? p).map Entry.blank := by
  have hget (es : List (Place × Entry)) :
      get? (es.map fun e => (e.1, e.2.blank)) p = (get? es p).map Entry.blank := by
    induction es with
    | nil => rfl
    | cons e es ih =>
      rw [map_cons, get?_cons, get?_cons, ih]
      split <;> rfl
  rw [ entry?, entry?]
  split
  · rfl
  · exact hget s.entries

theorem blank_put {p : Place} {text : Text} {age : Binary64} (h : s.entry? p = some (.file text age)) (text' : Text)
    (age' : Binary64) : (s.put p (.file text' age')).blank = s.blank := by
  have hinsert (es : List (Place × Entry)) (hes : get? es p = some (.file text age)) :
      (insert es p (.file text' age')).map (fun e => (e.1, e.2.blank)) = es.map fun e => (e.1, e.2.blank) := by
    induction es with
    | nil => cases hes
    | cons e es ih =>
      rw [get?_cons] at hes
      rw [Fields.insert]
      split at hes
      · next hkey =>
        rw [if_pos hkey, map_cons, map_cons, some.inj hes]
        rfl
      · next hkey => rw [if_neg hkey, map_cons, map_cons, ih hes]
  have hp : p ≠ [] := by
    rintro rfl
    cases h
  rw [ entry?, if_neg (by simpa using hp)] at h
  exact congrArg Store.mk (hinsert s.entries h)

/-! ## Walks -/

/-- The end of a walk, with the text and the age of a file left out. -/
def blankEnd (r : Place × Option Entry) : Place × Option Entry := (r.1, r.2.map Entry.blank)

theorem walkTo_blank {follow : Bool} {beyond beyond' : Place → List Text → Except Trouble (Place × Option Entry)}
    (h : ∀ p steps, beyond' p steps = (beyond p steps).map blankEnd) (here : Place) (steps : List Text) :
    s.blank.walkTo follow beyond' here steps = (s.walkTo follow beyond here steps).map blankEnd := by
  induction steps generalizing here with
  | nil =>
    rw [walkTo, walkTo, entry?_blank]
    rfl
  | cons step rest ih =>
    rw [walkTo, walkTo, entry?_blank]
    cases s.entry? here with
    | none => rfl
    | some e =>
      cases e with
      | file | link => rfl
      | directory age =>
        simp only [map_some, Entry.blank, ih, entry?_blank]
        split
        · rfl
        · split
          · rfl
          · split
            · rfl
            · cases s.entry? (here ++ [step]) with
              | none => simp only [map_none]; split <;> rfl
              | some e =>
                cases e with
                | file | directory => rfl
                | link target =>
                  simp only [map_some, Entry.blank, h]
                  split <;> rfl

theorem walk_blank (follow : Bool) (links : Nat) (here : Place) (steps : List Text) :
    s.blank.walk follow links here steps = (s.walk follow links here steps).map blankEnd := by
  induction links generalizing here steps with
  | zero =>
    rw [walk, walk]
    refine s.walkTo_blank ?_ here steps
    exact fun _ _ => rfl
  | succ links ih => exact s.walkTo_blank ih here steps

theorem locate_blank (cwd : Place) (follow : Bool) (name : Text) :
    s.blank.locate cwd follow name = (s.locate cwd follow name).map blankEnd := by
  rw [locate, locate]
  split
  · rfl
  · split
    · rfl
    · exact s.walk_blank follow linkLimit _ _

/-! ## What names lead to -/

theorem find?_blank (cwd : Place) (name : Text) : s.blank.find? cwd name = (s.find? cwd name).map Entry.blank := by
  rw [find?, find?, locate_blank]
  cases s.locate cwd true name <;> rfl

theorem hasLink_blank (cwd : Place) (name : Text) : s.blank.hasLink cwd name = s.hasLink cwd name := by
  rw [hasLink, hasLink, locate_blank]
  cases s.locate cwd false name with
  | error t => rfl
  | ok r => exact isSome_map

theorem isDirectory_blank (cwd : Place) (name : Text) : s.blank.isDirectory cwd name = s.isDirectory cwd name := by
  rw [isDirectory, isDirectory, find?_blank]
  cases s.find? cwd name with
  | none => rfl
  | some e => cases e <;> rfl

/-! ## Patterns -/

theorem list_blank (p : Place) : s.blank.list p = s.list p := by
  rw [list, list, blank, filterMap_map]
  rfl

theorem namesIn_blank (cwd : Place) (directory : Text) (onlyDirectories : Bool) :
    s.blank.namesIn cwd directory onlyDirectories = s.namesIn cwd directory onlyDirectories := by
  rw [namesIn, namesIn, locate_blank]
  cases s.locate cwd true (if directory.isEmpty then "." else directory) with
  | error t => rfl
  | ok r =>
    obtain ⟨p, e⟩ := r
    cases e with
    | none => rfl
    | some e =>
      cases e with
      | file | link => rfl
      | directory age =>
        simp only [Except.map, blankEnd, map_some, Entry.blank, list_blank]
        refine filter_congr fun n _ => ?_
        rw [ entry?_blank, isDirectory_blank]
        cases s.entry? (p ++ [n]) with
        | none => rfl
        | some e => cases e <;> rfl

theorem namesBelow_blank (cwd : Place) (onlyDirectories : Bool) (depth : Nat) (directory : Text) :
    s.blank.namesBelow cwd onlyDirectories depth directory = s.namesBelow cwd onlyDirectories depth directory := by
  induction depth generalizing directory with
  | zero => rfl
  | succ depth ih => simp only [namesBelow, namesIn_blank, ih]

theorem matchesIn_blank (cwd : Place) (onlyDirectories : Bool) (directory step : Text) :
    s.blank.matchesIn cwd onlyDirectories directory step = s.matchesIn cwd onlyDirectories directory step := by
  have hdepth : s.blank.depthLimit = s.depthLimit := by rw [depthLimit, depthLimit, blank, length_map]
  simp only [matchesIn, namesBelow_blank, namesIn_blank, isDirectory_blank, hasLink_blank, hdepth]

theorem globFrom_blank (cwd : Place) (depth : Nat) (onlyDirectories : Bool) (pattern : Text) :
    s.blank.globFrom cwd depth onlyDirectories pattern = s.globFrom cwd depth onlyDirectories pattern := by
  induction depth generalizing onlyDirectories pattern with
  | zero => rfl
  | succ depth ih => simp only [globFrom, matchesIn_blank, isDirectory_blank, hasLink_blank, ih]

/-! ## Places of names -/

theorem resolveWith_blank (inside : Place → Place → List Text → Except Place Place) (opened : List Place)
    (here : Place) (steps : List Text) :
    s.blank.resolveWith inside opened here steps = s.resolveWith inside opened here steps := by
  induction steps generalizing here with
  | nil => rfl
  | cons step rest ih =>
    simp only [resolveWith, ih, entry?_blank]
    split
    · rfl
    · split
      · rfl
      · cases s.entry? (here ++ [step]) with
        | none => rfl
        | some e => cases e <;> rfl

theorem resolve_blank (cwd : Place) (name : Text) : s.blank.resolve cwd name = s.resolve cwd name := by
  have hfrom (depth : Nat) (opened : List Place) (here : Place) (steps : List Text) :
      s.blank.resolveFrom depth opened here steps = s.resolveFrom depth opened here steps := by
    induction depth generalizing opened here steps with
    | zero => exact s.resolveWith_blank _ opened here steps
    | succ depth ih =>
      have hinside : (fun link => s.blank.resolveFrom depth (link :: opened)) =
          fun link => s.resolveFrom depth (link :: opened) := by
        funext link here steps
        exact ih (link :: opened) here steps
      rw [resolveFrom, resolveFrom, hinside, resolveWith_blank]
  have hlength : s.blank.entries.length = s.entries.length := length_map _
  simp only [resolve, hlength, hfrom]

end Store

end ViewLint
