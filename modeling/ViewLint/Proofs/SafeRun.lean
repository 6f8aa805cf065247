import ViewLint.Proofs.FixConflicts

/-!
# Runs of safe fixes that set texts

A fix that is safe does nothing but set one text. No two fixes of a run set a text at the same place, as
the later one loses a conflict, so a run of safe fixes exchanges texts at the places of the fixes that are
applied.

* **`Fix.applyAll_safe`**: the document after a run of safe fixes.
-/

namespace ViewLint.Fix

open Workplace

variable {fix : Fix}

/-! ## Fixes that set texts -/

/-- A fix does nothing but set a text at a place. -/
def Sets (fix : Fix) (place : Path) (new : Text) : Prop :=
  ∃ old description, fix.operations = [⟨place, .set old (.str new), description⟩]

/-- The applied fixes of a run set a text at a place. -/
def Outcome.Sets (o : Outcome) (fixes : List Fix) (place : Path) (new : Text) : Prop :=
  ∃ k ∈ o.applied, ∃ fix, fixes[k]? = some fix ∧ fix.Sets place new

theorem Sets.unique {p q : Path} {s t : Text} (h : fix.Sets p s) (h' : fix.Sets q t) : p = q ∧ s = t := by
  obtain ⟨_, _, h⟩ := h
  obtain ⟨_, _, h'⟩ := h'
  cases h.symm.trans h'
  exact ⟨rfl, rfl⟩

def texts (ρ : Path → Option Text) : Path → Option Json := fun p => (ρ p).map .str

theorem isContainer_of_texts {ρ : Path → Option Text} {q : Path} {x : Json} (h : texts ρ q = some x) :
    x.isContainer = false := by
  obtain ⟨s, -, rfl⟩ := Option.map_eq_some_iff.mp h
  rfl

section Run

variable {k : Nat} {p : Progress Json} {v : Json} {fixes : List Fix} {sel : Selection}

/-- The state of a run of safe fixes: each applied fix sets a text, and these texts are set. -/
def Invariant (v : Json) (fixes : List Fix) (k : Nat) (p : Progress Json) : Prop :=
  (∀ j ∈ p.outcome.applied, j < k ∧ ∃ fix place new, fixes[j]? = some fix ∧ fix.Sets place new) ∧
    ∃ ρ : Path → Option Text, p.doc = v.graft (texts ρ) ∧
      ∀ place new, ρ place = some new ↔ p.outcome.Sets fixes place new

theorem Invariant.skip (h : Invariant v fixes k p) (reason : Text) :
    Invariant v fixes (k + 1) ⟨p.doc, p.outcome.skip k reason⟩ := by
  obtain ⟨happlied, hρ⟩ := h
  exact ⟨fun j hj => ⟨Nat.lt_succ_of_lt (happlied j hj).1, (happlied j hj).2⟩, hρ⟩

theorem not_sets_of_not_loser (hfix : fixes[k]? = some fix)
    (hloser : k ∉ losers fixes) (hbound : ∀ j ∈ p.outcome.applied, j < k) {place : Path} {new : Text}
    (hsets : fix.Sets place new) (other : Text) : ¬ p.outcome.Sets fixes place other := by
  rintro ⟨j, hj, earlier, hearlier, old, description, hops⟩
  obtain ⟨old', description', hops'⟩ := hsets
  have htouch : Touches fixes j place := ⟨earlier, hearlier, by simp [hops]⟩
  have htouch' : Touches fixes k place := ⟨fix, hfix, by simp [hops']⟩
  exact hloser (mem_losers (hbound j hj) htouch htouch')

theorem Invariant.step (hdoc : v.isDocument = true) (hsel : sel.safeOnly = true)
    (h : Invariant v fixes k p) (hfix : fixes[k]? = some fix)
    (hsets : fix.safe = true → ∃ place new w, place ≠ [] ∧ v.At place w ∧ fix.Sets place new) :
    ∃ q, plain.step sel fixes p k fix = .ok q ∧ Invariant v fixes (k + 1) q := by
  cases hskip : skipReason? sel (losers fixes) k fix with
  | some reason => exact ⟨_, step_of_skipReason hskip, h.skip reason⟩
  | none =>
    obtain ⟨hadmits, hloser⟩ := skipReason?_eq_none hskip
    obtain ⟨place, new, w, hne, hat, hfixsets⟩ := hsets (hadmits.2 hsel)
    obtain ⟨happlied, ρ, hp, hρ⟩ := h
    have hfree := not_sets_of_not_loser hfix hloser (fun j hj => (happlied j hj).1) hfixsets
    obtain ⟨old, description, hops⟩ := id hfixsets
    by_cases hclear : Json.ClearAbove (texts ρ) place
    · classical
      let ρ' : Path → Option Text := fun q => if q = place then some new else ρ q
      have hset : p.doc.setAt place (.str new) = .ok (v.graft (texts ρ')) := by
        rw [hp]
        refine Json.put_graft hat hdoc hne hclear (by simp [texts, ρ']) fun q hq => by simp [texts, ρ', hq]
      have hrun : plain.runs p.doc k fix.operations.zipIdx = .ok (v.graft (texts ρ')) := by
        rw [hops, List.zipIdx_singleton, runs_cons]
        exact congrArg (· >>= _) hset
      refine ⟨_, step_of_runs hskip hrun, ?_, ρ', rfl, fun q t => ?_⟩
      · intro j hj
        obtain hj | hj := List.mem_append.mp hj
        · exact ⟨Nat.lt_succ_of_lt (happlied j hj).1, (happlied j hj).2⟩
        · obtain rfl := List.mem_singleton.mp hj
          exact ⟨Nat.lt_succ_self j, fix, place, new, hfix, hfixsets⟩
      · have hnext : ({ p.outcome with applied := p.outcome.applied ++ [k] } : Outcome).Sets fixes q t ↔
            p.outcome.Sets fixes q t ∨ fix.Sets q t := by
          simp [Outcome.Sets, or_and_right, exists_or, hfix]
        rw [hnext, ← hρ]
        by_cases hq : q = place
        · subst hq
          simp only [ρ', if_pos]
          constructor
          · rintro ⟨⟩
            exact .inr hfixsets
          · rintro (ht | ht)
            · exact absurd ((hρ _ _).mp ht) (hfree t)
            · rw [(hfixsets.unique ht).2]
        · simp only [ρ', if_neg hq]
          exact ⟨.inl, fun ht => ht.resolve_right fun ht => hq (ht.unique hfixsets).1⟩
    · obtain ⟨key, hbelow⟩ : ∃ key, p.doc.setAt place (.str new) = .error (.missingKey key) :=
        hp ▸ Json.put_graft_below hat (fun _ _ => isContainer_of_texts) hclear _
      have hbreaks : plain.Breaks p.doc k fix p.doc (.missingKey key) := by
        refine ⟨[], ⟨place, .set old (.str new), description⟩, 0, [], ?_, rfl, hbelow⟩
        rw [hops]
        rfl
      refine ⟨_, step_of_breaks hskip hbreaks (by simp), ?_⟩
      exact Invariant.skip ⟨happlied, ρ, hp, hρ⟩ _

theorem applyAll_safe (hdoc : v.isDocument = true) (hsel : sel.safeOnly = true)
    (hsets : ∀ fix ∈ fixes, fix.safe = true → ∃ place new w, place ≠ [] ∧ v.At place w ∧ fix.Sets place new) :
    ∃ ρ outcome, applyAll sel fixes v = .ok (v.graft (texts ρ), outcome) ∧
      (∀ place new, ρ place = some new ↔ outcome.Sets fixes place new) ∧
      ∀ k ∈ outcome.applied, ∃ fix place new, fixes[k]? = some fix ∧ fix.Sets place new := by
  have hstart : Invariant v fixes 0 ⟨v, { conflicts := conflicts fixes }⟩ := by
    refine ⟨fun j hj => (by cases hj), fun _ => none, ?_, fun place new => ?_⟩
    · exact (Json.graft_self hdoc fun _ _ _ h => by simp [texts] at h).symm
    · simp [Outcome.Sets]
  have hrun : ∃ p, plain.progressAt sel fixes v fixes.length = .ok p ∧ Invariant v fixes fixes.length p :=
    run_induction hstart (fun k fix p hfix _ hinv =>
      hinv.step hdoc hsel hfix (hsets fix (List.mem_of_getElem? hfix))) (Nat.le_refl _)
  obtain ⟨p, hp, happlied, ρ, hdoc', hρ⟩ := hrun
  refine ⟨ρ, p.outcome, ?_, hρ, fun k hk => (happlied k hk).2⟩
  rw [← plain_applyAll, applyAll_eq_progressAt, hp, ← hdoc']
  rfl

end Run

end ViewLint.Fix
