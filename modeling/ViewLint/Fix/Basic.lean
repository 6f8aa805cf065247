import ViewLint.View.Path

/-!
# Fixes

A fix is a list of changes to a document that together remove a violation.
-/

namespace ViewLint

inductive Change where
  | set (old new : Json)
  | replace (old new : Json)

structure Operation where
  path : Path
  change : Change
  description : Text := ""

structure Fix where
  rule : Json
  violation : Text
  description : Text
  operations : List Operation
  safe : Bool := true
  /-- Why the fix is not safe, if something is said about it. -/
  notes : Json := .null

namespace Fix

/-! ## Conflicts -/

structure Conflict where
  first : Nat
  second : Nat
  path : Path
  deriving Inhabited

def Conflict.description (c : Conflict) : Text := "Both fixes modify path " ++ c.path.format

structure Holdings where
  held : List (Text × Nat) := []
  conflicts : List Conflict := []

/-- One more path is touched by the fix at a position. The first fix that touches a path holds it. -/
def Holdings.touch (c : Holdings) (fix : Nat) (path : Path) : Holdings :=
  let key := path.display
  match c.held.find? fun h => h.1 == key && h.2 != fix with
  | some (_, owner) => { c with conflicts := c.conflicts ++ [⟨owner, fix, path⟩] }
  | none => { c with held := c.held ++ [(key, fix)] }

def conflicts (fixes : List Fix) : List Conflict :=
  (fixes.zipIdx.foldl (fun c (fix, i) =>
    fix.operations.foldl (fun c op => c.touch i op.path) c) ({} : Holdings)).conflicts

/-! ## Application -/

structure Selection where
  safeOnly : Bool := true
  /-- The rules whose fixes are wanted; none means all. -/
  rules : List Json := []

def Selection.wants (sel : Selection) (rule : Json) : Bool :=
  sel.rules.isEmpty || sel.rules.any (·.equals rule)

structure Outcome where
  applied : List Nat := []
  skipped : List (Nat × Text) := []
  conflicts : List Conflict := []

def skipReason? (sel : Selection) (losers : List Nat) (i : Nat) (fix : Fix) : Option Text :=
  if !sel.wants fix.rule then some "filtered by --fix-rules"
  else if sel.safeOnly && !fix.safe then
    some (if fix.notes.isTrue then "unsafe: " ++ fix.notes.display else "unsafe fix (use --fix-unsafe)")
  else if losers.contains i then some "conflicts with another fix"
  else none

def applyOperation (doc : Json) (op : Operation) : Except Fault Json :=
  match op.change with
  | .set _ new => doc.setAt op.path new
  | .replace old new => do return (← doc.replaceAt? op.path old new).getD doc

/-- The document after some operations. A failing operation ends them; what was done before stays. -/
def applyOperations : Json → List Operation → Json × Option Fault
  | doc, [] => (doc, none)
  | doc, op :: ops =>
    match applyOperation doc op with
    | .ok doc => applyOperations doc ops
    | .error e => (doc, some e)

structure Progress (σ : Type) where
  doc : σ
  outcome : Outcome

/-- One fix is tried. A position outside an array is fatal, every other fault skips the fix. -/
def tryFix {σ : Type} (attempt : σ → Nat → Fix → σ × Option Fault) (sel : Selection)
    (losers : List Nat) (p : Progress σ) (i : Nat) (fix : Fix) : Except Fault (Progress σ) :=
  let skip (reason : Text) : Outcome :=
    { p.outcome with skipped := p.outcome.skipped ++ [(i, reason)] }
  match skipReason? sel losers i fix with
  | some reason => .ok { p with outcome := skip reason }
  | none =>
    match attempt p.doc i fix with
    | (doc, none) => .ok ⟨doc, { p.outcome with applied := p.outcome.applied ++ [i] }⟩
    | (_, some .outOfRange) => .error .outOfRange
    | (doc, some e) => .ok ⟨doc, skip ("error: " ++ e.message)⟩

def applyEach {σ : Type} (attempt : σ → Nat → Fix → σ × Option Fault) (sel : Selection)
    (fixes : List Fix) (doc : σ) : Except Fault (σ × Outcome) := do
  let found := conflicts fixes
  let losers := found.map (·.second)
  let p ← fixes.zipIdx.foldlM (fun p (fix, i) => tryFix attempt sel losers p i fix)
    ⟨doc, { conflicts := found }⟩
  return (p.doc, p.outcome)

def applyAll (sel : Selection) (fixes : List Fix) (doc : Json) : Except Fault (Json × Outcome) :=
  applyEach (fun doc _ fix => applyOperations doc fix.operations) sel fixes doc

def preview (sel : Selection) (fixes : List Fix) : Outcome :=
  let found := conflicts fixes
  let losers := found.map (·.second)
  fixes.zipIdx.foldl (fun o (fix, i) =>
    match skipReason? sel losers i fix with
    | some reason => { o with skipped := o.skipped ++ [(i, reason)] }
    | none => { o with applied := o.applied ++ [i] }) { conflicts := found }

end Fix

end ViewLint
