import ViewLint.Fix.Basic

/-!
# Fixes applied again and again

An object or an array that an operation puts into a document stays the operation's own value: what is
changed in it later is changed for the operation too, and comes back when the operation is applied
once more. The value of one operation may come to stand inside the value of another. A bench keeps
the document and the values of all operations in step.
-/

namespace ViewLint

/-- The steps that lead on from the end of a path, if another path starts with it. -/
def Path.after? : Path → Path → Option Path
  | [], rest => some rest
  | _ :: _, [] => none
  | a :: start, b :: path => if a.equals b then after? start path else none

def Json.plainPath : Json → Path → Path
  | _, [] => []
  | v, step :: rest =>
    let plain : Json := match v with
      | .arr items => ((itemPosition items.length step).map fun n => .int n).toOption.getD step
      | _ => step
    match part [] v step with
    | .ok w => plain :: plainPath w rest
    | .error _ => plain :: rest

abbrev OperationId := Nat × Nat

structure Holder where
  value : Json
  links : List (Path × OperationId) := []

structure Bench where
  doc : Holder
  values : List (OperationId × Holder) := []

namespace Bench

def ofFixes (fixes : List Fix) (doc : Json) : Bench where
  doc := ⟨doc, []⟩
  values := fixes.zipIdx.flatMap fun (fix, i) =>
    fix.operations.zipIdx.filterMap fun (op, j) =>
      match op.change with
      | .set _ new => some ((i, j), ⟨new, []⟩)
      | .replace _ _ => none

def depth (b : Bench) : Nat := b.values.length + 1

def holder (b : Bench) : Option OperationId → Holder
  | none => b.doc
  | some id => (Fields.get? b.values id).getD ⟨.null, []⟩

def setHolder (b : Bench) (h : Holder) : Option OperationId → Bench
  | none => { b with doc := h }
  | some id => { b with values := Fields.insert b.values id h }

def content (b : Bench) : Nat → Holder → Json
  | 0, h => h.value
  | n + 1, h => h.links.foldl (fun v (path, id) =>
      (v.setAt path (content b n (b.holder (some id)))).toOption.getD v) h.value

def document (b : Bench) : Json := b.content b.depth b.doc

def value (b : Bench) (id : OperationId) : Json := b.content b.depth (b.holder (some id))

def owner (b : Bench) : Nat → Option OperationId → Path → Option OperationId × Path
  | 0, at?, path => (at?, path)
  | n + 1, at?, path =>
    let next := (b.holder at?).links.findSome? fun (start, id) =>
      match Path.after? start path with
      | some (step :: rest) => some (id, step :: rest)
      | _ => none
    match next with
    | some (id, rest) => owner b n (some id) rest
    | none => (at?, path)

/-- The bench with another value at a path of the document, which may be the value of an operation. -/
def put (b : Bench) (path : Path) (new : Json) (id? : Option OperationId) : Bench :=
  let (at?, inner) := b.owner b.depth none (b.document.plainPath path)
  let h := b.holder at?
  let kept := h.links.filter fun (place, _) => (Path.after? inner place).isNone
  b.setHolder ⟨(h.value.setAt inner new).toOption.getD h.value, kept ++ id?.toList.map (inner, ·)⟩ at?

def applyOperation (b : Bench) (id : OperationId) (op : Operation) : Except Fault Bench := do
  match op.change with
  | .set _ _ =>
    let new := b.value id
    let _ ← b.document.setAt op.path new
    return b.put op.path new (if new.isContainer then some id else none)
  | .replace old new =>
    match ← b.document.replaceAt? op.path old new with
    | none => return b
    | some doc => return b.put op.path (← doc.getAt op.path) none

def applyOperations (b : Bench) (fix : Nat) : List (Operation × Nat) → Bench × Option Fault
  | [] => (b, none)
  | (op, j) :: ops =>
    match b.applyOperation (fix, j) op with
    | .ok b => applyOperations b fix ops
    | .error e => (b, some e)

def applyAll (sel : Fix.Selection) (fixes : List Fix) (b : Bench) : Except Fault (Bench × Fix.Outcome) :=
  Fix.applyEach (fun b i fix => b.applyOperations i fix.operations.zipIdx) sel fixes b

end Bench

end ViewLint
