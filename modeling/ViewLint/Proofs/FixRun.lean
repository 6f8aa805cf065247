import ViewLint.Proofs.Fields
import ViewLint.Fix.Bench

/-!
# Runs of fixes

Fixes are tried one after another, and the operations of a fix one after another, on a document alone or
on a bench.

* `Fix.Workplace`: what fixes are carried out on, with the way in which one operation acts on it.
* `Workplace.Breaks`: an operation in the middle of a fix fails, on what those before it leave.
* **`Fix.allOrNothing_iff`**: when a run leaves no half of a fix behind.
-/

namespace ViewLint

open List

namespace Fix

/-- Numbered operations of a fix, one after another. A failing operation ends them; what was done before
stays. -/
def carryOut {σ : Type} (act : σ → OperationId → Operation → Except Fault σ) (s : σ) (fix : Nat) :
    List (Operation × Nat) → σ × Option Fault
  | [] => (s, none)
  | (op, j) :: ops =>
    match act s (fix, j) op with
    | .ok s => carryOut act s fix ops
    | .error e => (s, some e)

/-- An outcome with one more fix skipped. -/
def Outcome.skip (o : Outcome) (i : Nat) (reason : Text) : Outcome :=
  { o with skipped := o.skipped ++ [(i, reason)] }

/-- An outcome with one more fix applied. -/
def Outcome.apply (o : Outcome) (i : Nat) : Outcome := { o with applied := o.applied ++ [i] }

/-- What fixes are carried out on. -/
structure Workplace (σ : Type) where
  document : σ → Json
  /-- One operation. -/
  act : σ → OperationId → Operation → Except Fault σ
  /-- One fix. -/
  attempt : σ → Nat → Fix → σ × Option Fault
  attempt_eq : ∀ s i fix, attempt s i fix = carryOut act s i fix.operations.zipIdx

namespace Workplace

variable {fix : Fix} {fault : Fault} {σ : Type} {left t : σ}

theorem carryOut_applyOperation (doc : Json) (i j : Nat) (ops : List Operation) :
    carryOut (fun doc _ op => applyOperation doc op) doc i (ops.zipIdx j) = applyOperations doc ops := by
  induction ops generalizing doc j with
  | nil => rfl
  | cons op ops ih =>
    rw [zipIdx_cons, carryOut, applyOperations]
    cases applyOperation doc op with
    | error e => rfl
    | ok next => exact ih next (j + 1)

theorem carryOut_bench (b : Bench) (i : Nat) (ops : List (Operation × Nat)) :
    carryOut Bench.applyOperation b i ops = b.applyOperations i ops := by
  induction ops generalizing b with
  | nil => rfl
  | cons op ops ih =>
    obtain ⟨op, j⟩ := op
    rw [carryOut, Bench.applyOperations]
    cases b.applyOperation (i, j) op with
    | error e => rfl
    | ok next => exact ih next

def plain : Workplace Json where
  document doc := doc
  act doc _ op := applyOperation doc op
  attempt doc _ fix := applyOperations doc fix.operations
  attempt_eq doc i fix := (carryOut_applyOperation doc i 0 fix.operations).symm

def bench : Workplace Bench where
  document := Bench.document
  act := Bench.applyOperation
  attempt b i fix := b.applyOperations i fix.operations.zipIdx
  attempt_eq b i fix := (carryOut_bench b i fix.operations.zipIdx).symm

def applyAll {σ : Type} (w : Workplace σ) (sel : Selection) (fixes : List Fix) (s : σ) : Except Fault (σ × Outcome) :=
  applyEach w.attempt sel fixes s

theorem plain_applyAll : plain.applyAll = Fix.applyAll := rfl

/-! ## The operations of a fix -/

section Operations

variable {i : Nat} {ops : List (Operation × Nat)} (w : Workplace σ) {s : σ}

/-- Numbered operations of a fix that all succeed. -/
def runs (s : σ) (i : Nat) (ops : List (Operation × Nat)) : Except Fault σ :=
  ops.foldlM (fun s (op, j) => w.act s (i, j) op) s

theorem runs_cons (s : σ) (i j : Nat) (op : Operation) (ops : List (Operation × Nat)) :
    w.runs s i ((op, j) :: ops) = w.act s (i, j) op >>= fun next => w.runs next i ops := rfl

/-- An operation of a fix fails on what the operations before it leave. -/
def Breaks (s : σ) (i : Nat) (fix : Fix) (left : σ) (fault : Fault) : Prop :=
  ∃ before op j after, fix.operations.zipIdx = before ++ (op, j) :: after ∧
    w.runs s i before = .ok left ∧ w.act left (i, j) op = .error fault

theorem carryOut_eq_fault_iff : carryOut w.act s i ops = (left, some fault) ↔
      ∃ before op j after, ops = before ++ (op, j) :: after ∧
        w.runs s i before = .ok left ∧ w.act left (i, j) op = .error fault := by
  induction ops generalizing s with
  | nil => simp [carryOut]
  | cons op ops ih =>
    obtain ⟨op, j⟩ := op
    rw [carryOut]
    cases h : w.act s (i, j) op with
    | error e =>
      constructor
      · intro heq
        cases heq
        exact ⟨[], op, j, ops, rfl, rfl, h⟩
      · rintro ⟨before, op', j', after, hsplit, hrun, hfail⟩
        cases before with
        | nil => cases hsplit; cases hrun; rw [h] at hfail; cases hfail; rfl
        | cons b before =>
          cases hsplit
          rw [runs_cons, h] at hrun
          cases hrun
    | ok next =>
      rw [ih]
      constructor
      · rintro ⟨before, op', j', after, rfl, hrun, hfail⟩
        refine ⟨(op, j) :: before, op', j', after, rfl, ?_, hfail⟩
        rw [runs_cons, h]
        exact hrun
      · rintro ⟨before, op', j', after, hsplit, hrun, hfail⟩
        cases before with
        | nil => cases hsplit; cases hrun; rw [h] at hfail; cases hfail
        | cons b before =>
          cases hsplit
          rw [runs_cons, h] at hrun
          exact ⟨before, op', j', after, rfl, hrun, hfail⟩

theorem carryOut_eq_none_iff : carryOut w.act s i ops = (left, none) ↔ w.runs s i ops = .ok left := by
  induction ops generalizing s with
  | nil => simp [carryOut, runs, pure, Except.pure]
  | cons op ops ih =>
    obtain ⟨op, j⟩ := op
    rw [carryOut, runs_cons]
    cases h : w.act s (i, j) op with
    | error e => simp [bind, Except.bind]
    | ok next => exact ih

/-- **A fix ends with a fault exactly if one of its operations fails.** -/
theorem attempt_eq_fault_iff : w.attempt s i fix = (left, some fault) ↔ w.Breaks s i fix left fault := by
  rw [w.attempt_eq]
  exact w.carryOut_eq_fault_iff

theorem attempt_eq_none_iff : w.attempt s i fix = (left, none) ↔ w.runs s i fix.operations.zipIdx = .ok left := by
  rw [w.attempt_eq]
  exact w.carryOut_eq_none_iff

end Operations

/-! ## The fixes of a run -/

/-- The fixes that lose a conflict, by position. -/
def losers (fixes : List Fix) : List Nat := (conflicts fixes).map (·.second)

section Run

variable {outcome : Outcome} (w : Workplace σ) (sel : Selection) (fixes : List Fix)
  {k : Nat} {fix : Fix} {p : Progress σ} {P : Nat → Progress σ → Prop}

def step (p : Progress σ) (i : Nat) (fix : Fix) : Except Fault (Progress σ) :=
  tryFix w.attempt sel (losers fixes) p i fix

/-- The state of a run when the first `k` fixes have been tried. -/
def progressAt (s : σ) (k : Nat) : Except Fault (Progress σ) :=
  (fixes.zipIdx.take k).foldlM (fun p (fix, i) => w.step sel fixes p i fix) ⟨s, { conflicts := conflicts fixes }⟩

theorem applyAll_eq_progressAt (s : σ) :
    w.applyAll sel fixes s = (w.progressAt sel fixes s fixes.length).map fun p => (p.doc, p.outcome) := by
  have hall : fixes.zipIdx.take fixes.length = fixes.zipIdx :=
    take_of_length_le (Nat.le_of_eq length_zipIdx)
  rw [progressAt, hall]
  rfl

variable {w sel fixes} {s : σ}

theorem progressAt_succ (h : fixes[k]? = some fix) : w.progressAt sel fixes s (k + 1) =
      w.progressAt sel fixes s k >>= fun p => w.step sel fixes p k fix := by
  have hk : fixes.zipIdx[k]? = some (fix, k) := by
    rw [getElem?_zipIdx, h]
    simp
  rw [progressAt, take_add_one, hk, Option.toList_some, foldlM_append]
  simp only [foldlM_cons, foldlM_nil, bind_pure]
  rfl

theorem run_induction (start : P 0 ⟨s, { conflicts := conflicts fixes }⟩)
    (next : ∀ k fix p, fixes[k]? = some fix → w.progressAt sel fixes s k = .ok p → P k p →
      ∃ q, w.step sel fixes p k fix = .ok q ∧ P (k + 1) q)
    (hk : k ≤ fixes.length) : ∃ p, w.progressAt sel fixes s k = .ok p ∧ P k p := by
  induction k with
  | zero => exact ⟨_, rfl, start⟩
  | succ k ih =>
    obtain ⟨p, hp, hP⟩ := ih (by omega)
    have hfix := getElem?_eq_getElem (l := fixes) (i := k) (by omega)
    obtain ⟨q, hq, hQ⟩ := next k _ p hfix hp hP
    refine ⟨q, ?_, hQ⟩
    rw [progressAt_succ hfix, hp]
    exact hq

theorem step_of_skipReason {reason : Text} (h : skipReason? sel (losers fixes) k fix = some reason) :
    w.step sel fixes p k fix = .ok ⟨p.doc, p.outcome.skip k reason⟩ := by
  rw [step, tryFix, h]
  rfl

/-- A fix that breaks is skipped, with what was done before its fault. -/
theorem step_of_breaks (hskip : skipReason? sel (losers fixes) k fix = none)
    (h : w.Breaks p.doc k fix left fault) (hne : fault ≠ .outOfRange) :
    w.step sel fixes p k fix = .ok ⟨left, p.outcome.skip k ("error: " ++ fault.message)⟩ := by
  rw [step, tryFix, hskip]
  simp only [w.attempt_eq_fault_iff.mpr h]
  cases fault with
  | outOfRange => exact absurd rfl hne
  | _ => rfl

/-- A position outside an array ends the whole run. -/
theorem step_of_outOfRange (hskip : skipReason? sel (losers fixes) k fix = none)
    (h : w.Breaks p.doc k fix left .outOfRange) : w.step sel fixes p k fix = .error .outOfRange := by
  rw [step, tryFix, hskip]
  simp only [w.attempt_eq_fault_iff.mpr h]

theorem step_of_runs (hskip : skipReason? sel (losers fixes) k fix = none)
    (h : w.runs p.doc k fix.operations.zipIdx = .ok left) :
    w.step sel fixes p k fix = .ok ⟨left, { p.outcome with applied := p.outcome.applied ++ [k] }⟩ := by
  rw [step, tryFix, hskip]
  simp only [w.attempt_eq_none_iff.mpr h]

/-- **What becomes of a fix that is tried**: there is a reason to skip it, or it is applied, or its fault is
the reason. -/
theorem step_cases {q : Progress σ} (h : w.step sel fixes p k fix = .ok q) :
    (∃ reason, skipReason? sel (losers fixes) k fix = some reason ∧ q.outcome = p.outcome.skip k reason) ∨
      skipReason? sel (losers fixes) k fix = none ∧ (q.outcome = p.outcome.apply k ∨
          ∃ fault : Fault, q.outcome = p.outcome.skip k ("error: " ++ fault.message)) := by
  cases hskip : skipReason? sel (losers fixes) k fix with
  | some reason =>
    rw [step_of_skipReason hskip] at h
    cases h
    exact .inl ⟨reason, rfl, rfl⟩
  | none =>
    refine .inr ⟨rfl, ?_⟩
    rcases hops : w.attempt p.doc k fix with ⟨left, _ | fault⟩
    · rw [step_of_runs hskip (w.attempt_eq_none_iff.mp hops)] at h
      cases h
      exact .inl rfl
    · have hbreaks := w.attempt_eq_fault_iff.mp hops
      by_cases hfault : fault = .outOfRange
      · subst hfault
        rw [step_of_outOfRange hskip hbreaks] at h
        cases h
      · rw [step_of_breaks hskip hbreaks hfault] at h
        cases h
        exact .inr ⟨fault, rfl⟩

/-- **What every fix that is tried keeps holds along a run that has come so far.** -/
theorem progressAt_induction (start : P 0 ⟨s, { conflicts := conflicts fixes }⟩)
    (next : ∀ k fix p q, fixes[k]? = some fix → P k p → w.step sel fixes p k fix = .ok q → P (k + 1) q)
    (hk : k ≤ fixes.length) (h : w.progressAt sel fixes s k = .ok p) : P k p := by
  induction k generalizing p with
  | zero =>
    cases h
    exact start
  | succ k ih =>
    have hfix := getElem?_eq_getElem (l := fixes) (i := k) (by omega)
    rw [progressAt_succ hfix, bind_eq_ok] at h
    obtain ⟨before, hbefore, hstep⟩ := h
    exact next k _ before p hfix (ih (by omega) hbefore) hstep

/-- **What every fix that is tried keeps holds at the end of a run.** -/
theorem applyAll_induction {P : Nat → Outcome → Prop} (start : P 0 { conflicts := conflicts fixes })
    (next : ∀ k fix (p q : Progress σ), fixes[k]? = some fix → P k p.outcome → w.step sel fixes p k fix = .ok q →
      P (k + 1) q.outcome) (h : w.applyAll sel fixes s = .ok (t, outcome)) : P fixes.length outcome := by
  rw [applyAll_eq_progressAt] at h
  obtain ⟨p, hp, heq⟩ := map_eq_ok.mp h
  cases heq
  exact progressAt_induction (P := fun k p => P k p.outcome) start next (Nat.le_refl _) hp

theorem applied_of_applyAll (h : w.applyAll sel fixes s = .ok (t, outcome))
    (hk : k ∈ outcome.applied) : ∃ fix, fixes[k]? = some fix ∧ skipReason? sel (losers fixes) k fix = none := by
  refine applyAll_induction (P := fun _ o => ∀ j ∈ o.applied,
    ∃ fix, fixes[j]? = some fix ∧ skipReason? sel (losers fixes) j fix = none) nofun ?_ h k hk
  intro k fix p q hfix ih hstep j hj
  obtain ⟨_, -, hout⟩ | ⟨hskip, hout | ⟨_, hout⟩⟩ := step_cases hstep
  · exact ih j (by rwa [hout] at hj)
  · rw [hout, Outcome.apply, mem_append, mem_singleton] at hj
    obtain hj | rfl := hj
    · exact ih j hj
    · exact ⟨fix, hfix, hskip⟩
  · exact ih j (by rwa [hout] at hj)

end Run

/-! ## All or nothing -/

section AllOrNothing

variable (w : Workplace σ) (sel : Selection) (fixes : List Fix) (s : σ)

/-- A run is finished, and each fix that breaks is skipped and leaves the document as it was. -/
def AllOrNothing : Prop :=
  (∃ result, w.applyAll sel fixes s = .ok result) ∧
    ∀ k fix p left fault, fixes[k]? = some fix → w.progressAt sel fixes s k = .ok p →
      w.Breaks p.doc k fix left fault →
      ∃ q reason, w.progressAt sel fixes s (k + 1) = .ok q ∧
        q.outcome = p.outcome.skip k reason ∧ w.document q.doc = w.document p.doc

/-- Every fix that is tried and breaks does so before it has changed the document, and not by a position
outside an array. -/
def BreaksCleanly : Prop :=
  ∀ k fix p left fault, fixes[k]? = some fix → skipReason? sel (losers fixes) k fix = none →
    w.progressAt sel fixes s k = .ok p → w.Breaks p.doc k fix left fault →
    fault ≠ .outOfRange ∧ w.document left = w.document p.doc

variable {w sel fixes s}

theorem BreaksCleanly.step_skips (h : w.BreaksCleanly sel fixes s) {k : Nat}
    {p : Progress σ} (hfix : fixes[k]? = some fix)
    (hp : w.progressAt sel fixes s k = .ok p) (hbreaks : w.Breaks p.doc k fix left fault) :
    ∃ q reason, w.step sel fixes p k fix = .ok q ∧
      q.outcome = p.outcome.skip k reason ∧ w.document q.doc = w.document p.doc := by
  cases hskip : skipReason? sel (losers fixes) k fix with
  | some reason => exact ⟨_, reason, step_of_skipReason hskip, rfl, rfl⟩
  | none =>
    obtain ⟨hfault, hdoc⟩ := h k fix p left fault hfix hskip hp hbreaks
    exact ⟨_, _, step_of_breaks hskip hbreaks hfault, rfl, hdoc⟩

/-- A run in which every fix breaks cleanly is finished. -/
theorem BreaksCleanly.applyAll_ok (h : w.BreaksCleanly sel fixes s) :
    ∃ result, w.applyAll sel fixes s = .ok result := by
  have hrun : ∃ p, w.progressAt sel fixes s fixes.length = .ok p ∧ True := by
    refine run_induction (P := fun _ _ => True) trivial ?_ (Nat.le_refl _)
    intro k fix p hfix hp _
    cases hskip : skipReason? sel (losers fixes) k fix with
    | some reason => exact ⟨_, step_of_skipReason hskip, trivial⟩
    | none =>
      rcases hops : w.attempt p.doc k fix with ⟨left, _ | fault⟩
      · exact ⟨_, step_of_runs hskip (w.attempt_eq_none_iff.mp hops), trivial⟩
      · obtain ⟨q, _, hq, -⟩ := h.step_skips hfix hp (w.attempt_eq_fault_iff.mp hops)
        exact ⟨q, hq, trivial⟩
  obtain ⟨p, hp, -⟩ := hrun
  exact ⟨(p.doc, p.outcome), by rw [applyAll_eq_progressAt, hp]; rfl⟩

theorem AllOrNothing.breaksCleanly (h : w.AllOrNothing sel fixes s) : w.BreaksCleanly sel fixes s := by
  intro k fix p left fault hfix hskip hp hbreaks
  obtain ⟨q, reason, hnext, -, hdoc⟩ := h.2 k fix p left fault hfix hp hbreaks
  rw [progressAt_succ hfix, hp] at hnext
  have hstep : w.step sel fixes p k fix = .ok q := hnext
  have hfault : fault ≠ .outOfRange := by
    rintro rfl
    rw [step_of_outOfRange hskip hbreaks] at hstep
    cases hstep
  rw [step_of_breaks hskip hbreaks hfault] at hstep
  cases hstep
  exact ⟨hfault, hdoc⟩

theorem BreaksCleanly.allOrNothing (h : w.BreaksCleanly sel fixes s) : w.AllOrNothing sel fixes s := by
  refine ⟨h.applyAll_ok, ?_⟩
  intro k fix p left fault hfix hp hbreaks
  obtain ⟨q, reason, hq, hout, hdoc⟩ := h.step_skips hfix hp hbreaks
  exact ⟨q, reason, by rw [progressAt_succ hfix, hp]; exact hq, hout, hdoc⟩

end AllOrNothing

end Workplace

open Workplace in
/-- **A run leaves no half of a fix behind exactly if** every fix that is tried and breaks does so before
it has changed anything, and not by a position outside an array; on a document alone and on a bench. -/
theorem allOrNothing_iff (sel : Selection) (fixes : List Fix) (doc : Json) (b : Bench) :
    (plain.AllOrNothing sel fixes doc ↔ plain.BreaksCleanly sel fixes doc) ∧
      (bench.AllOrNothing sel fixes b ↔ bench.BreaksCleanly sel fixes b) :=
  ⟨⟨AllOrNothing.breaksCleanly, BreaksCleanly.allOrNothing⟩, ⟨AllOrNothing.breaksCleanly, BreaksCleanly.allOrNothing⟩⟩

/-- A fix whose second operation steps into a number. -/
def halfway : Fix where
  rule := .str "R"
  violation := "v"
  description := "d"
  operations := [⟨[.str "a"], .set (.int 1) (.int 9), ""⟩, ⟨[.str "b", .str "c"], .set .null (.int 0), ""⟩]

/-- The first operation of a skipped fix stays in the document. -/
theorem not_allOrNothing_halfway : ¬ Workplace.plain.AllOrNothing {} [halfway]
      (.obj .plain [(.name "a", .int 1), (.name "b", .int 2)]) := by
  rintro ⟨-, hundone⟩
  obtain ⟨q, reason, h, -, hdoc⟩ := hundone 0 halfway _ (.obj .plain [(.name "a", .int 9), (.name "b", .int 2)]) _
    rfl rfl ⟨[(⟨[.str "a"], .set (.int 1) (.int 9), ""⟩, 0)], _, _, [], rfl, rfl, rfl⟩
  cases h
  cases hdoc

end Fix

end ViewLint
