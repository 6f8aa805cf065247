import ViewLint.Engine.Basic

/-!
# An engine at work

Views are told apart by their numbers. A view is built when it is asked about; before the rules are applied
it is built only if another one has been on the desk since.
-/

namespace ViewLint

structure Desk where
  engine : Engine
  held : Option Nat := none

inductive Request where
  /-- The rules are applied. A locator lets them make fixes. -/
  | process (source : Json) (locator : Option Locator) (timing : Bool)
  | statistics
  | analysis
  | debugNodes (kinds : Json)

inductive Reply where
  | results (r : LintResults)
  | statistics (s : Engine.Statistics)
  | analysis (impacts : List (Text × Engine.Impact))
  | nodes (ns : List Json)

namespace Desk

def load (d : Desk) (number : Nat) (flat : Flat) : Except Fault Desk := do
  return { engine := ← d.engine.load flat, held := some number }

def hold (d : Desk) (number : Nat) (flat : Flat) : Except Fault Desk :=
  if d.held == some number then .ok d else d.load number flat

def answer (d : Desk) (number : Nat) (flat : Flat) : Request → Session (Desk × Reply)
  | .process source locator timing => do
    let d ← Session.lift (d.hold number flat)
    let (engine, results) ← d.engine.process source locator timing
    return ({ d with engine }, .results results)
  | .statistics => do
    let d ← Session.lift (d.load number flat)
    return (d, .statistics (← Session.lift d.engine.statistics))
  | .analysis => do
    let d ← Session.lift (d.load number flat)
    return (d, .analysis (← Session.lift d.engine.analysis))
  | .debugNodes kinds => do
    let d ← Session.lift (d.load number flat)
    let (remarks, nodes) := d.engine.debugNodes kinds
    Session.printLines remarks
    return (d, .nodes (← Session.lift nodes))

end Desk

end ViewLint
