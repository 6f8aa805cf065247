import ViewLint.Json.Access
import ViewLint.Store.Basic

/-!
# Snapshots of files

A store is filled with files, and compared with another one below a directory.
-/

namespace ViewLint

def tellingTime : Binary64 := .ofInt 1704164645

/-- An age as it is told: times of writing are kept in double precision, and so is the time at which
ages are told. -/
def toldAge (age : Binary64) : Binary64 := tellingTime.sub (tellingTime.sub age)

/-- An entry that a JSON value describes: a text, or an object with a text and an age, that may also
ask for a directory or a link. -/
def Entry.ofJson : Json → Entry
  | .str text => .file text (.zero false)
  | v =>
    let age := match (v.member "age").number? with
      | some (.int n) => .ofInt n
      | some (.float x) => toldAge x
      | none => .zero false
    if v.flag "dir" false then .directory age
    else match (v.member "link").str? with
      | some target => .link target
      | none => .file (v.text "text") age

def Entry.text? : Entry → Option Text
  | .file text _ => some text
  | .link target => some ("-> " ++ target)
  | .directory _ => none

structure Changes where
  written : List (Text × Text)
  removed : List Text

namespace Store

def plant (s : Store) (p : Place) (e : Entry) : Store :=
  let above : Store := ((List.range p.length).map p.take).foldl (fun s q =>
    if (s.entry? q).isSome then s else s.put q (.directory (.zero false))) s
  above.put p e

/-- The place of an entry that is to be planted under a name: links on the way are followed, and for
anything but a link also one at the end. -/
def placeFor (s : Store) (root : Place) (name : Text) : Entry → Place
  | .link _ =>
    match s.resolve root (FileName.parent name) with
    | .ok directory => directory ++ [FileName.last name]
    | .error _ => root ++ FileName.steps name
  | _ => (s.resolve root name).toOption.getD (root ++ FileName.steps name)

def plantAll (s : Store) (root : Place) (files : Json) : Store :=
  files.fields.foldl (fun s (name, described) =>
    let e := Entry.ofJson described
    s.plant (s.placeFor root name e) e) s

def textsBelow (s : Store) (root : Place) : List (Text × Text) :=
  s.entries.filterMap fun (p, e) =>
    if root.isPrefixOf p && root.length < p.length then
      e.text?.map (Text.join "/" (p.drop root.length), ·)
    else none

def changes (before after : Store) (root : Place) : Changes :=
  let old := before.textsBelow root
  let new := after.textsBelow root
  { written := new.filter fun (name, text) => Fields.get? old name != some text
    removed := Text.sort ((old.filter fun (name, _) => !Fields.has new name).map (·.1)) }

end Store

end ViewLint
