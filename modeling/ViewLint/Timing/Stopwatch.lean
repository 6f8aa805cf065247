import ViewLint.Json.Basic

/-!
# Stopwatches

The clock counts seconds, durations are in milliseconds. A stopwatch is told the time; it never reads
a clock.
-/

namespace ViewLint

structure Measurement where
  operation : Json
  duration : Binary64
  context : Json := .null

structure Stopwatch where
  started : Option Number := none
  last : Binary64 := .zero false
  measurements : List Measurement := []

def elapsed (start now : Number) : Except Overflow Binary64 := do
  (← (← now.sub start).mul (.float (.ofInt 1000))).toFloat

namespace Stopwatch

/-- Starts a measurement; a running one is given up. Without a time, none is running. -/
def start (w : Stopwatch) (now : Option Number) : Stopwatch := { w with started := now }

/-- Stops the running measurement and gives its duration, which is recorded if the operation has a
name. Nothing happens if no measurement is running. -/
def stop (w : Stopwatch) (now : Number) (operation context : Json) :
    Except Overflow (Stopwatch × Binary64) :=
  match w.started with
  | none => .ok (w, .zero false)
  | some start => do
    let duration ← elapsed start now
    let recorded := if operation.isTrue then [⟨operation, duration, context⟩] else []
    return ({ started := none, last := duration, measurements := w.measurements ++ recorded }, duration)

def measure (w : Stopwatch) (now : Option Number) (operation context : Json) (finish : Number) :
    Except Overflow Stopwatch :=
  ((w.start now).stop finish operation context).map (·.1)

end Stopwatch

end ViewLint
