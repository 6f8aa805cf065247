import ViewLint.Session
import ViewLint.Text.Blank

/-!
# The files of a run

The files to lint are named one by one or found by patterns; a whitelist excepts some.
-/

namespace ViewLint

structure Collected where
  chosen : List Text := []
  whitelisted : List Text := []

namespace Collect

def viewName : Text := "view.json"

def add (whitelist : List Place) (c : Collected) (name : Text) : Session Collected := do
  let place ← Session.resolve name
  if whitelist.contains place then
    Session.printLine ("🔒 Skipped (whitelisted): " ++ name)
    return { c with whitelisted := c.whitelisted ++ [name] }
  return { c with chosen := c.chosen ++ [name] }

def named (whitelist : List Place) (names : List Text) : Session Collected :=
  names.foldlM (fun c name => do
    let file := FileName.tidy name
    if ← Session.checkedExists file then add whitelist c file
    else
      Session.printLine ("Warning: File " ++ name ++ " does not exist")
      return c) {}

def found (whitelist : List Place) (patterns : Text) : Session Collected := do
  ((Text.splitOn "," patterns).map Text.strip).foldlM (fun c pattern => do
    (← Session.glob pattern).foldlM (fun c name => do
      let file := FileName.tidy name
      if (← Session.checkedExists file) && FileName.last file == viewName then add whitelist c file
      else return c) c) {}

def run (whitelist : List Place) (names : List Text) (patterns : Text) (verbose : Bool) :
    Session Collected := do
  let c ← if !names.isEmpty then named whitelist names
    else if !patterns.isEmpty then found whitelist patterns
    else pure {}
  if !c.whitelisted.isEmpty && verbose then
    Session.printLine ("\n📊 Whitelist Summary: " ++ natText c.whitelisted.length ++ " files skipped")
  return c

end Collect

end ViewLint
