import ViewLint.Proofs.FixConflicts

/-!
# Fixes announced and applied

A preview goes through the fixes as a run does, but tries none of them. A run follows its preview, apart from
the fixes that fail.

* `Workplace.idle`: the workplace of a preview, where nothing is done.
* **`Fix.run_follows_preview`**: what a preview tells about every run.
* **`Fix.loses_to_first`**: an admitted fix loses to the first at one of its paths, be that applied or not.
-/

namespace ViewLint.Fix

open List Outcome

variable {i k j : Nat} {reason : Text}

/-! ## Accounts -/

namespace Outcome

/-- Each of `n` fixes is told of once, as applied or as skipped, and both lists keep the order. -/
structure Accounts (o : Outcome) (n : Nat) : Prop where
  applied : o.applied.Sublist (range n)
  skipped : (o.skipped.map (·.1)).Sublist (range n)
  once : (o.applied ++ o.skipped.map (·.1)).Perm (range n)

def failed (o : Outcome) : List Nat := (o.skipped.filter fun s => isFailure s.2).map (·.1)

/-- An outcome tells the same conflicts as another, applies the same fixes but those that failed, and skips
all others for the same reasons. -/
structure Follows (o announced : Outcome) : Prop where
  conflicts : o.conflicts = announced.conflicts
  applied : o.applied = announced.applied.filter fun i => !o.failed.contains i
  skipped : (o.skipped.filter fun s => !isFailure s.2) = announced.skipped

variable {o announced : Outcome} {n : Nat}

theorem Accounts.apply (h : o.Accounts n) : (o.apply n).Accounts (n + 1) where
  applied := by
    rw [range_succ]
    exact h.applied.append (Sublist.refl _)
  skipped := by
    rw [range_succ]
    exact h.skipped.trans (sublist_append_left _ _)
  once := by
    rw [range_succ, Outcome.apply, append_assoc]
    refine (Perm.append_left _ perm_append_comm).trans ?_
    rw [← append_assoc]
    exact h.once.append_right _

theorem Accounts.skip (h : o.Accounts n) (reason : Text) : (o.skip n reason).Accounts (n + 1) where
  applied := by
    rw [range_succ]
    exact h.applied.trans (sublist_append_left _ _)
  skipped := by
    rw [range_succ, Outcome.skip, map_append]
    exact h.skipped.append (Sublist.refl _)
  once := by
    rw [range_succ, Outcome.skip, map_append, ← append_assoc]
    exact h.once.append_right _

theorem Accounts.lt_of_applied (h : o.Accounts n) (hi : i ∈ o.applied) : i < n :=
  mem_range.mp (h.applied.subset hi)

theorem Accounts.lt_of_failed (h : o.Accounts n) (hi : i ∈ o.failed) : i < n := by
  obtain ⟨s, hs, rfl⟩ := mem_map.mp hi
  exact mem_range.mp (h.skipped.subset (mem_map_of_mem (mem_filter.mp hs).1))

theorem failed_skip (o : Outcome) (i : Nat) (reason : Text) :
    (o.skip i reason).failed = o.failed ++ if isFailure reason then [i] else [] := by
  cases hreason : isFailure reason <;> simp [failed, skip, filter_append, hreason]

theorem Follows.skip (h : o.Follows announced) (hreason : isFailure reason = false) (i : Nat) :
    (o.skip i reason).Follows (announced.skip i reason) where
  conflicts := h.conflicts
  applied := by
    rw [failed_skip, hreason, if_neg Bool.false_ne_true, append_nil]
    exact h.applied
  skipped := by
    simp only [Outcome.skip, filter_append, h.skipped]
    simp [hreason]

theorem Follows.apply (h : o.Follows announced) (hfailed : n ∉ o.failed) :
    (o.apply n).Follows (announced.apply n) where
  conflicts := h.conflicts
  applied := by
    have hsame : (o.apply n).failed = o.failed := rfl
    rw [hsame, Outcome.apply, Outcome.apply, filter_append, ← h.applied]
    simp [hfailed]
  skipped := h.skipped

theorem Follows.fail (h : o.Follows announced) (hbound : ∀ i ∈ announced.applied, i < n)
    (hreason : isFailure reason = true) : (o.skip n reason).Follows (announced.apply n) where
  conflicts := h.conflicts
  applied := by
    have hold : (announced.applied.filter fun i => !(o.failed ++ [n]).contains i) =
        announced.applied.filter fun i => !o.failed.contains i :=
      filter_congr fun i hi => by simp [Nat.ne_of_lt (hbound i hi)]
    rw [failed_skip, hreason, if_pos rfl, Outcome.apply, filter_append, hold, ← h.applied]
    simp [Outcome.skip]
  skipped := by
    simp only [Outcome.skip, filter_append, h.skipped]
    simp [hreason, Outcome.apply]

end Outcome

/-! ## Runs and previews -/

namespace Workplace

variable {σ : Type} {w : Workplace σ} {sel : Selection} {fixes : List Fix} {s t : σ} {o : Outcome} {p : Progress σ}

def idle : Workplace Json where
  document doc := doc
  act doc _ _ := .ok doc
  attempt doc _ _ := (doc, none)
  attempt_eq doc i fix := by
    generalize fix.operations.zipIdx = ops
    induction ops with
    | nil => rfl
    | cons op ops ih => exact ih

/-- An outcome with one more fix, which is applied unless there is a reason to skip it. -/
def foresee (sel : Selection) (fixes : List Fix) (o : Outcome) (f : Fix × Nat) : Outcome :=
  (skipReason? sel (losers fixes) f.2 f.1).elim (o.apply f.2) (o.skip f.2)

theorem preview_eq (sel : Selection) (fixes : List Fix) :
    preview sel fixes = fixes.zipIdx.foldl (foresee sel fixes) { conflicts := conflicts fixes } := by
  rw [preview]
  congr 1
  funext o ⟨fix, i⟩
  dsimp only [foresee, losers]
  cases skipReason? sel ((conflicts fixes).map (·.second)) i fix <;> rfl

/-- **A preview is a run at which nothing is done.** -/
theorem idle_applyAll (sel : Selection) (fixes : List Fix) (doc : Json) :
    idle.applyAll sel fixes doc = .ok (doc, preview sel fixes) := by
  have hfold : ∀ (l : List (Fix × Nat)) (o : Outcome),
      l.foldlM (fun p (f : Fix × Nat) => tryFix idle.attempt sel (losers fixes) p f.2 f.1) ⟨doc, o⟩ =
        .ok ⟨doc, l.foldl (foresee sel fixes) o⟩ := by
    intro l
    induction l with
    | nil => exact fun o => rfl
    | cons f l ih =>
      intro o
      rw [foldlM_cons, foldl_cons, tryFix, foresee]
      cases skipReason? sel (losers fixes) f.2 f.1 <;> exact ih _
  rw [preview_eq]
  exact congrArg (Except.map fun p => (p.doc, p.outcome)) (hfold fixes.zipIdx { conflicts := conflicts fixes })

theorem accounts_of_progressAt (hk : k ≤ fixes.length)
    (h : w.progressAt sel fixes s k = .ok p) : p.outcome.Accounts k := by
  refine progressAt_induction (P := fun k p => p.outcome.Accounts k) ?_ ?_ hk h
  · exact ⟨.slnil, .slnil, .nil⟩
  · intro k fix p q _ ih hstep
    obtain ⟨reason, -, hout⟩ | ⟨-, hout | ⟨fault, hout⟩⟩ := step_cases hstep <;> rw [hout]
    · exact ih.skip reason
    · exact ih.apply
    · exact ih.skip _

/-- **A run follows a run at which nothing is done**, fix by fix. -/
theorem follows_of_progressAt {doc : Json} (hk : k ≤ fixes.length) {q : Progress Json}
    (hp : w.progressAt sel fixes s k = .ok p) (hq : idle.progressAt sel fixes doc k = .ok q) :
    p.outcome.Follows q.outcome := by
  induction k generalizing p q with
  | zero =>
    cases hp
    cases hq
    exact ⟨rfl, rfl, rfl⟩
  | succ k ih =>
    have hfix := getElem?_eq_getElem (l := fixes) (i := k) (by omega)
    rw [progressAt_succ hfix, bind_eq_ok] at hp hq
    obtain ⟨before, hbefore, hstep⟩ := hp
    obtain ⟨announced, hannounced, hnext⟩ := hq
    have hfollows := ih (by omega) hbefore hannounced
    have haccounts : before.outcome.Accounts k := accounts_of_progressAt (by omega) hbefore
    have hannounces : announced.outcome.Accounts k := accounts_of_progressAt (by omega) hannounced
    obtain ⟨reason, hskip, hout⟩ | ⟨hskip, hout⟩ := step_cases hstep
    · rw [step_of_skipReason hskip] at hnext
      cases hnext
      rw [hout]
      exact hfollows.skip (isFailure_of_skipReason? hskip) k
    · have hruns := idle.attempt_eq_none_iff.mp (rfl : idle.attempt announced.doc k fixes[k] = (announced.doc, none))
      rw [step_of_runs hskip hruns] at hnext
      cases hnext
      obtain hout | ⟨fault, hout⟩ := hout <;> rw [hout]
      · exact hfollows.apply fun hfailed => absurd (haccounts.lt_of_failed hfailed) (Nat.lt_irrefl k)
      · exact hfollows.fail (fun i hi => hannounces.lt_of_applied hi) rfl

theorem accounts_of_applyAll (h : w.applyAll sel fixes s = .ok (t, o)) : o.Accounts fixes.length := by
  rw [applyAll_eq_progressAt] at h
  obtain ⟨p, hp, heq⟩ := map_eq_ok.mp h
  cases heq
  exact accounts_of_progressAt (Nat.le_refl _) hp

theorem follows_preview (h : w.applyAll sel fixes s = .ok (t, o)) : o.Follows (preview sel fixes) := by
  have hidle := idle_applyAll sel fixes .null
  rw [applyAll_eq_progressAt] at h hidle
  obtain ⟨p, hp, heq⟩ := map_eq_ok.mp h
  obtain ⟨q, hq, heq'⟩ := map_eq_ok.mp hidle
  rw [← (Prod.mk.inj heq).2, ← (Prod.mk.inj heq').2]
  exact follows_of_progressAt (Nat.le_refl _) hp hq

/-- The fixes that a run applies touch no path twice. -/
theorem applied_disjoint (h : w.applyAll sel fixes s = .ok (t, o)) (hi : i ∈ o.applied)
    (hj : j ∈ o.applied) (hne : i ≠ j) {path : Path} (htouch : Touches fixes i path) : ¬ Touches fixes j path := by
  have hloser : ∀ k ∈ o.applied, k ∉ losers fixes := fun k hk => by
    obtain ⟨fix, -, hskip⟩ := applied_of_applyAll h hk
    exact (skipReason?_eq_none hskip).2
  intro htouch'
  obtain hlt | hlt := Nat.lt_or_gt_of_ne hne
  · exact hloser j hj (mem_losers hlt htouch htouch')
  · exact hloser i hi (mem_losers hlt htouch' htouch)

/-- A fix is skipped without being tried exactly if there is a reason to. -/
theorem mem_skipped_iff (h : w.applyAll sel fixes s = .ok (t, o)) (hreason : isFailure reason = false) :
    (j, reason) ∈ o.skipped ↔ ∃ fix, fixes[j]? = some fix ∧ skipReason? sel (losers fixes) j fix = some reason := by
  have hrun : (j, reason) ∈ o.skipped ↔ j < fixes.length ∧
      ∃ fix, fixes[j]? = some fix ∧ skipReason? sel (losers fixes) j fix = some reason := by
    refine applyAll_induction (P := fun k o => (j, reason) ∈ o.skipped ↔ j < k ∧
      ∃ fix, fixes[j]? = some fix ∧ skipReason? sel (losers fixes) j fix = some reason) ?_ ?_ h
    · exact ⟨nofun, fun hlt => absurd hlt.1 (Nat.not_lt_zero j)⟩
    intro k fix p q hfix ih hstep
    have hnext : (j < k + 1 ∧ ∃ fix, fixes[j]? = some fix ∧ skipReason? sel (losers fixes) j fix = some reason) ↔
        (j, reason) ∈ p.outcome.skipped ∨ j = k ∧ skipReason? sel (losers fixes) k fix = some reason := by
      rw [ih, Nat.lt_succ_iff_lt_or_eq, or_and_right]
      refine or_congr_right (and_congr_right fun hj => ?_)
      rw [hj, hfix]
      exact ⟨fun ⟨_, heq, hskip⟩ => Option.some.inj heq ▸ hskip, fun hskip => ⟨fix, rfl, hskip⟩⟩
    rw [hnext]
    obtain ⟨reason', hskip, hout⟩ | ⟨hskip, hout | ⟨fault, hout⟩⟩ := step_cases hstep <;> rw [hout, hskip]
    · simp [skip, eq_comm]
    · simp [apply]
    · have hfault : reason ≠ "error: " ++ fault.message := fun heq => by
        rw [heq] at hreason
        cases hreason
      simp [skip, hfault]
  refine hrun.trans (and_iff_right_of_imp ?_)
  rintro ⟨fix, hfix, -⟩
  exact (List.getElem?_eq_some_iff.mp hfix).1

end Workplace

open Workplace

/-- **A run follows its preview.** A preview leaves every document as it is and accounts for each fix, and
the fixes that it announces as applied touch no path twice. Whenever a run returns, it accounts for each fix
too, tells the same conflicts, applies just the announced fixes that do not fail, and skips all others for
the announced reasons; on a document alone, on a bench, or at any other workplace. -/
theorem run_follows_preview {σ : Type} (w : Workplace σ) (sel : Selection) (fixes : List Fix) :
    (∀ doc, idle.applyAll sel fixes doc = .ok (doc, preview sel fixes)) ∧ (preview sel fixes).Accounts fixes.length ∧
      (∀ i ∈ (preview sel fixes).applied, ∀ j ∈ (preview sel fixes).applied, i ≠ j →
        ∀ path, Touches fixes i path → ¬ Touches fixes j path) ∧
      ∀ s t o, w.applyAll sel fixes s = .ok (t, o) → o.Accounts fixes.length ∧ o.Follows (preview sel fixes) := by
  have hidle := idle_applyAll sel fixes .null
  exact ⟨idle_applyAll sel fixes, accounts_of_applyAll hidle,
    fun i hi j hj hne path htouch => applied_disjoint hidle hi hj hne htouch,
    fun s t o h => ⟨accounts_of_applyAll h, follows_preview h⟩⟩

def setting (path : Path) (new : Int) (safe : Bool) : Fix where
  rule := .str "R"
  violation := "v"
  description := "d"
  operations := [⟨path, .set .null (.int new), ""⟩]
  safe := safe

/-- A fix that is applied, one that loses to it, one that fails and one that is not safe. -/
def mixed : List Fix :=
  [setting [.str "a"] 2 true, setting [.str "a"] 3 true, setting [.str "b", .str "c"] 4 true,
    setting [.str "b"] 5 false]

theorem run_follows_preview_mixed : ∃ t o,
    plain.applyAll {} mixed (.object [("a", .int 1), ("b", .int 2)]) = .ok (t, o) ∧
      o.applied = [0] ∧ o.failed = [2] ∧ o.Accounts 4 ∧ o.Follows (preview {} mixed) := by
  have hrun : ∃ t o, plain.applyAll {} mixed (.object [("a", .int 1), ("b", .int 2)]) = .ok (t, o) ∧
      o.applied = [0] ∧ o.failed = [2] := ⟨_, _, rfl, rfl, rfl⟩
  obtain ⟨t, o, h, happlied, hfailed⟩ := hrun
  exact ⟨t, o, h, happlied, hfailed, (run_follows_preview plain {} mixed).2.2.2 _ t o h⟩

/-! ## Lost conflicts -/

/-- Each fix that is skipped for a conflict shares a path with a fix that is applied. -/
def LosesOnlyToApplied (fixes : List Fix) (o : Outcome) : Prop :=
  ∀ j, (j, conflictReason) ∈ o.skipped → ∃ path, Touches fixes j path ∧ ∃ i ∈ o.applied, Touches fixes i path

/-- **A fix loses to the first fix at one of its paths, whatever becomes of that one.** A fix is skipped for a
conflict exactly if it is admitted and another one comes first at one of its paths; and each such fix shares
a path with an applied one exactly if each has a path at which the first fix is applied. -/
theorem loses_to_first {σ : Type} {w : Workplace σ} {sel : Selection} {fixes : List Fix} {s t : σ} {o : Outcome}
    (hproper : ∀ fix ∈ fixes, ∀ op ∈ fix.operations, op.path.isProper = true)
    (h : w.applyAll sel fixes s = .ok (t, o)) :
    (∀ j, (j, conflictReason) ∈ o.skipped ↔ (∃ fix, fixes[j]? = some fix ∧ sel.Admits fix) ∧
      ∃ path i, Touches fixes j path ∧ FirstAt fixes path i ∧ i < j) ∧
    (LosesOnlyToApplied fixes o ↔ ∀ j, (j, conflictReason) ∈ o.skipped →
      ∃ path i, Touches fixes j path ∧ FirstAt fixes path i ∧ i ∈ o.applied) := by
  refine ⟨fun j => ?_, forall_congr' fun j => imp_congr_right fun _ => ?_⟩
  · rw [mem_skipped_iff h rfl]
    simp only [skipReason?_eq_conflict_iff, mem_losers_iff hproper, ← and_assoc, exists_and_right]
  · constructor
    · rintro ⟨path, hj, i, hi, htouch⟩
      obtain ⟨fix, -, hskip⟩ := applied_of_applyAll h hi
      refine ⟨path, i, hj, ⟨htouch, fun k hk => ?_⟩, hi⟩
      exact Nat.le_of_not_lt fun hlt => (skipReason?_eq_none hskip).2 (mem_losers hlt hk htouch)
    · rintro ⟨path, i, hj, hfirst, hi⟩
      exact ⟨path, hj, i, hi, hfirst.1⟩

/-- Two fixes of one path, of which the first is not safe. -/
def rivals : List Fix := [setting [.str "a"] 2 false, setting [.str "a"] 3 true]

theorem rivals_run : ∃ t o, plain.applyAll {} rivals (.object [("a", .int 1)]) = .ok (t, o) ∧ o.applied = [] ∧
    (1, conflictReason) ∈ o.skipped := ⟨_, _, rfl, rfl, mem_of_getElem? (i := 1) rfl⟩

theorem loses_to_first_rivals : ∃ t o, plain.applyAll {} rivals (.object [("a", .int 1)]) = .ok (t, o) ∧
    (1, conflictReason) ∈ o.skipped ∧ ∃ path i, Touches rivals 1 path ∧ FirstAt rivals path i ∧ i < 1 := by
  obtain ⟨t, o, h, -, hlost⟩ := rivals_run
  exact ⟨t, o, h, hlost, (((loses_to_first (by decide) h).1 1).mp hlost).2⟩

/-- A fix that is not safe is not applied, and keeps a safe one from being applied. -/
theorem not_losesOnlyToApplied_rivals : ∃ t o,
    plain.applyAll {} rivals (.object [("a", .int 1)]) = .ok (t, o) ∧ ¬ LosesOnlyToApplied rivals o := by
  obtain ⟨t, o, h, happlied, hlost⟩ := rivals_run
  refine ⟨t, o, h, fun hloses => ?_⟩
  obtain ⟨-, -, i, hi, -⟩ := hloses 1 hlost
  rw [happlied] at hi
  cases hi

end ViewLint.Fix
