import ViewLint.Proofs.FixRun
import ViewLint.Proofs.QuotedPaths

/-!
# Conflicts among fixes

The paths of all fixes are gone through in order. The first fix that touches a path holds it from then on,
and every later one that touches it loses, whatever becomes of the first.

* `Fix.FirstAt`: a fix is the first one that touches a path.
* **`Fix.mem_losers_iff`**: a fix loses exactly if one of its paths has an earlier first fix.
-/

namespace ViewLint.Fix

open List

variable {fix : Fix} {sel : Selection} {losers : List Nat} {ts : List (Nat × Path)}
  {fixes : List Fix} {i j : Nat} {path : Path}

def touches (fixes : List (Fix × Nat)) : List (Nat × Path) :=
  fixes.flatMap fun f => f.1.operations.map fun op => (f.2, op.path)

def held (c : Holdings) (ts : List (Nat × Path)) : Holdings := ts.foldl (fun c t => c.touch t.1 t.2) c

/-- The fix at a position touches a path. -/
def Touches (fixes : List Fix) (i : Nat) (path : Path) : Prop :=
  ∃ fix, fixes[i]? = some fix ∧ path ∈ fix.operations.map (·.path)

/-- The fix at a position is the first that touches a path. -/
def FirstAt (fixes : List Fix) (path : Path) (i : Nat) : Prop :=
  Touches fixes i path ∧ ∀ k, Touches fixes k path → i ≤ k

theorem mem_touches_iff : (i, path) ∈ touches fixes.zipIdx ↔ Touches fixes i path := by
  constructor
  · intro h
    obtain ⟨⟨fix, k⟩, hk, hmem⟩ := mem_flatMap.mp h
    obtain ⟨op, hop, heq⟩ := mem_map.mp hmem
    cases heq
    exact ⟨fix, mem_zipIdx_iff_getElem?.mp hk, mem_map_of_mem hop⟩
  · rintro ⟨fix, hfix, hmem⟩
    obtain ⟨op, hop, rfl⟩ := mem_map.mp hmem
    exact mem_flatMap.mpr ⟨(fix, i), mem_zipIdx_iff_getElem?.mpr hfix, mem_map_of_mem hop⟩

theorem pairwise_touches (fixes : List Fix) : (touches fixes.zipIdx).Pairwise fun t u => t.1 ≤ u.1 := by
  have hzip : fixes.zipIdx.Pairwise fun f g => f.2 < g.2 := by
    rw [← pairwise_map, zipIdx_map_snd]
    exact pairwise_lt_range'
  refine pairwise_flatMap.mpr ⟨fun f _ => ?_, hzip.imp fun hlt t ht u hu => ?_⟩
  · exact pairwise_map.mpr (pairwise_of_forall fun _ _ => Nat.le_refl _)
  · obtain ⟨_, -, rfl⟩ := mem_map.mp ht
    obtain ⟨_, -, rfl⟩ := mem_map.mp hu
    exact Nat.le_of_lt hlt

theorem Touches.exists_first (h : Touches fixes i path) : ∃ k ≤ i, FirstAt fixes path k := by
  classical
  have hex : ∃ k, Touches fixes k path := ⟨i, h⟩
  exact ⟨Nat.find hex, Nat.find_le h, Nat.find_spec hex, fun k hk => Nat.find_le hk⟩

theorem Touches.isProper (h : Touches fixes i path)
    (hproper : ∀ fix ∈ fixes, ∀ op ∈ fix.operations, op.path.isProper = true) : path.isProper = true := by
  obtain ⟨fix, hfix, hmem⟩ := h
  obtain ⟨op, hop, rfl⟩ := mem_map.mp hmem
  exact hproper fix (mem_of_getElem? hfix) op hop

/-! ## Holdings -/

theorem held_append (c : Holdings) (xs ys : List (Nat × Path)) : held c (xs ++ ys) = held (held c xs) ys :=
  foldl_append

theorem conflicts_eq (fixes : List Fix) : conflicts fixes = (held {} (touches fixes.zipIdx)).conflicts := by
  rw [conflicts, held, touches, foldl_flatMap]
  simp only [foldl_map]

/-- **What a touch does**: either another fix holds the path, and there is one more conflict, or no other fix
does, and the path is held. -/
theorem touch_cases (c : Holdings) (i : Nat) (path : Path) :
    (∃ owner, (path.display, owner) ∈ c.held ∧ owner ≠ i ∧
      c.touch i path = { c with conflicts := c.conflicts ++ [⟨owner, i, path⟩] }) ∨
    (∀ owner, (path.display, owner) ∈ c.held → owner = i) ∧
      c.touch i path = { c with held := c.held ++ [(path.display, i)] } := by
  rw [Holdings.touch]
  cases hfind : c.held.find? fun h => h.1 == path.display && h.2 != i with
  | some h =>
    obtain ⟨key, owner⟩ := h
    have hmem := mem_of_find?_eq_some hfind
    have hkey := find?_some hfind
    simp only [Bool.and_eq_true, beq_iff_eq, bne_iff_ne] at hkey
    obtain ⟨rfl, hne⟩ := hkey
    exact .inl ⟨owner, hmem, hne, rfl⟩
  | none =>
    refine .inr ⟨fun owner howner => ?_, rfl⟩
    have := find?_eq_none.mp hfind _ howner
    simpa using this

theorem subset_held (c : Holdings) (ts : List (Nat × Path)) :
    c.held ⊆ (held c ts).held ∧ c.conflicts ⊆ (held c ts).conflicts := by
  induction ts generalizing c with
  | nil => exact ⟨Subset.refl _, Subset.refl _⟩
  | cons t ts ih =>
    have htouch : c.held ⊆ (c.touch t.1 t.2).held ∧ c.conflicts ⊆ (c.touch t.1 t.2).conflicts := by
      obtain ⟨_, -, -, heq⟩ | ⟨-, heq⟩ := touch_cases c t.1 t.2 <;> rw [heq]
      · exact ⟨Subset.refl _, subset_append_left _ _⟩
      · exact ⟨subset_append_left _ _, Subset.refl _⟩
    exact ⟨Subset.trans htouch.1 (ih _).1, Subset.trans htouch.2 (ih _).2⟩

theorem held_of_touched (c : Holdings) {t : Nat × Path} (ht : t ∈ ts) :
    ∃ owner, (t.2.display, owner) ∈ (held c ts).held := by
  obtain ⟨before, after, rfl⟩ := append_of_mem ht
  have htouch : ∃ owner, (t.2.display, owner) ∈ ((held c before).touch t.1 t.2).held := by
    obtain ⟨owner, howner, -, heq⟩ | ⟨-, heq⟩ := touch_cases (held c before) t.1 t.2 <;> rw [heq]
    · exact ⟨owner, howner⟩
    · exact ⟨t.1, mem_append_right _ mem_cons_self⟩
  obtain ⟨owner, howner⟩ := htouch
  rw [held_append]
  exact ⟨owner, (subset_held _ after).1 howner⟩

theorem of_mem_held {key : Text} {owner : Nat} (h : (key, owner) ∈ (held {} ts).held) :
    ∃ path, (owner, path) ∈ ts ∧ path.display = key := by
  induction ts using reverseRecOn with
  | nil => cases h
  | append_singleton ts t ih =>
    have hearlier : (key, owner) ∈ (held {} ts).held →
        ∃ path, (owner, path) ∈ ts ++ [t] ∧ path.display = key := fun hold => by
      obtain ⟨path, hpath, hkey⟩ := ih hold
      exact ⟨path, mem_append_left _ hpath, hkey⟩
    rw [held_append] at h
    obtain ⟨_, -, -, heq⟩ | ⟨-, heq⟩ := touch_cases (held {} ts) t.1 t.2
    · exact hearlier (by rwa [held, foldl_cons, foldl_nil, heq] at h)
    · rw [held, foldl_cons, foldl_nil, heq, mem_append, mem_singleton] at h
      obtain hold | hnew := h
      · exact hearlier hold
      · cases hnew
        exact ⟨t.2, mem_append_right _ mem_cons_self, rfl⟩

/-- The two fixes of a conflict differ and have touched a path of one display, one after the other. -/
theorem of_mem_conflicts {c : Conflict} (h : c ∈ (held {} ts).conflicts) :
    c.first ≠ c.second ∧ ∃ path : Path, path.display = c.path.display ∧
      [(c.first, path), (c.second, c.path)].Sublist ts := by
  induction ts using reverseRecOn with
  | nil => cases h
  | append_singleton ts t ih =>
    have hearlier : c ∈ (held {} ts).conflicts → c.first ≠ c.second ∧ ∃ path : Path,
        path.display = c.path.display ∧ [(c.first, path), (c.second, c.path)].Sublist (ts ++ [t]) := fun hold => by
      obtain ⟨hne, path, hdisplay, hsub⟩ := ih hold
      exact ⟨hne, path, hdisplay, hsub.trans (sublist_append_left _ _)⟩
    rw [held_append] at h
    obtain ⟨owner, howner, hne, heq⟩ | ⟨-, heq⟩ := touch_cases (held {} ts) t.1 t.2
    · rw [held, foldl_cons, foldl_nil, heq, mem_append, mem_singleton] at h
      obtain hold | rfl := h
      · exact hearlier hold
      · obtain ⟨path, hpath, hkey⟩ := of_mem_held howner
        exact ⟨hne, path, hkey, (singleton_sublist.mpr hpath).append (Sublist.refl [t])⟩
    · exact hearlier (by rwa [held, foldl_cons, foldl_nil, heq] at h)

/-! ## Losers -/

theorem mem_losers (hij : i < j) (hi : Touches fixes i path)
    (hj : Touches fixes j path) : j ∈ Workplace.losers fixes := by
  obtain ⟨before, after, hsplit⟩ := append_of_mem (mem_touches_iff.mpr hi)
  obtain ⟨hbefore, hafter, hacross⟩ := pairwise_append.mp (hsplit ▸ pairwise_touches fixes)
  -- someone up to `i` holds the path once `i` has touched it
  obtain ⟨owner, howner⟩ := held_of_touched {} (mem_append_right before (mem_singleton_self (i, path)))
  have hle : owner ≤ i := by
    obtain ⟨other, hother, -⟩ := of_mem_held howner
    obtain hother | hother := mem_append.mp hother
    · exact hacross _ hother _ mem_cons_self
    · cases mem_singleton.mp hother
      exact Nat.le_refl _
  have hlater : (j, path) ∈ after := by
    have hmem := hsplit ▸ mem_touches_iff.mpr hj
    obtain hmem | hmem := mem_append.mp hmem
    · exact absurd (hacross _ hmem _ mem_cons_self) (Nat.not_le.mpr hij)
    · obtain heq | hmem := mem_cons.mp hmem
      · cases heq
        exact absurd hij (Nat.lt_irrefl _)
      · exact hmem
  obtain ⟨between, rest, rfl⟩ := append_of_mem hlater
  let c : Holdings := held (held {} (before ++ [(i, path)])) between
  have hconflict : j ∈ (c.touch j path).conflicts.map (·.second) := by
    obtain ⟨_, -, -, heq⟩ | ⟨hheld, -⟩ := touch_cases c j path
    · simp [heq]
    · have := hheld owner ((subset_held _ between).1 howner)
      omega
  have hall : touches fixes.zipIdx = before ++ [(i, path)] ++ between ++ (j, path) :: rest := by simp [hsplit]
  rw [Workplace.losers, conflicts_eq, hall, held_append, held_append]
  exact map_subset _ (subset_held (c.touch j path) rest).2 hconflict

theorem mem_losers_iff (hproper : ∀ fix ∈ fixes, ∀ op ∈ fix.operations, op.path.isProper = true) :
    j ∈ Workplace.losers fixes ↔ ∃ path i, Touches fixes j path ∧ FirstAt fixes path i ∧ i < j := by
  constructor
  · intro h
    rw [Workplace.losers, conflicts_eq] at h
    obtain ⟨c, hc, rfl⟩ := List.mem_map.mp h
    obtain ⟨hne, path, hdisplay, hsub⟩ := of_mem_conflicts hc
    have hle : c.first ≤ c.second := by
      have hpair := (pairwise_touches fixes).sublist hsub
      exact List.rel_of_pairwise_cons hpair mem_cons_self
    have hfirst := mem_touches_iff.mp (hsub.subset mem_cons_self)
    have hsecond := mem_touches_iff.mp (hsub.subset (List.mem_cons_of_mem _ mem_cons_self))
    obtain rfl := Path.display_inj (hfirst.isProper hproper) (hsecond.isProper hproper) hdisplay
    obtain ⟨i, hi, hat⟩ := hfirst.exists_first
    exact ⟨_, i, hsecond, hat, by omega⟩
  · rintro ⟨path, i, hj, hfirst, hlt⟩
    exact mem_losers hlt hfirst.1 hj

/-! ## Reasons -/

/-- Whether a reason tells of a fix that was tried and failed. -/
def isFailure (reason : Text) : Bool := Text.startsWith reason "error:"

/-- A selection lets a fix pass. -/
def Selection.Admits (sel : Selection) (fix : Fix) : Prop :=
  sel.wants fix.rule = true ∧ (sel.safeOnly = true → fix.safe = true)

/-- The reason for which a fix is skipped that loses a conflict. -/
def conflictReason : Text := "conflicts with another fix"

theorem skipReason?_cases (sel : Selection) (losers : List Nat) (i : Nat) (fix : Fix) :
    (¬ sel.Admits fix ∧ ∃ reason, skipReason? sel losers i fix = some reason ∧ isFailure reason = false ∧
      reason ≠ conflictReason) ∨
    sel.Admits fix ∧ (i ∈ losers ∧ skipReason? sel losers i fix = some conflictReason ∨
      i ∉ losers ∧ skipReason? sel losers i fix = none) := by
  rw [skipReason?]
  by_cases hwants : sel.wants fix.rule = true
  · by_cases hsafe : sel.safeOnly = true → fix.safe = true
    · have hpass : (sel.safeOnly && !fix.safe) = false := by
        cases hsel : sel.safeOnly with
        | false => rfl
        | true => rw [hsafe hsel]; rfl
      by_cases hloser : i ∈ losers
      · exact .inr ⟨⟨hwants, hsafe⟩, .inl ⟨hloser, by simp [hwants, hpass, hloser, conflictReason]⟩⟩
      · exact .inr ⟨⟨hwants, hsafe⟩, .inr ⟨hloser, by simp [hwants, hpass, hloser]⟩⟩
    · obtain ⟨hsel, hunsafe⟩ := Classical.not_imp.mp hsafe
      refine .inl ⟨fun h => hsafe h.2, if fix.notes.isTrue then "unsafe: " ++ fix.notes.display
        else "unsafe fix (use --fix-unsafe)", by simp [hwants, hsel, hunsafe], ?_⟩
      split
      · exact ⟨rfl, fun h => absurd (cons.inj h).1 (by decide)⟩
      · exact ⟨rfl, by decide⟩
  · exact .inl ⟨fun h => hwants h.1, "filtered by --fix-rules", by simp [hwants], rfl, by decide⟩

theorem skipReason?_eq_none (h : skipReason? sel losers i fix = none) : sel.Admits fix ∧ i ∉ losers := by
  obtain ⟨-, _, heq, -⟩ | ⟨hadmits, ⟨-, heq⟩ | ⟨hloser, -⟩⟩ := skipReason?_cases sel losers i fix
  · cases heq.symm.trans h
  · cases heq.symm.trans h
  · exact ⟨hadmits, hloser⟩

theorem isFailure_of_skipReason? {reason : Text}
    (h : skipReason? sel losers i fix = some reason) : isFailure reason = false := by
  obtain ⟨-, _, heq, hnot, -⟩ | ⟨-, ⟨-, heq⟩ | ⟨-, heq⟩⟩ := skipReason?_cases sel losers i fix
  · cases heq.symm.trans h
    exact hnot
  · cases heq.symm.trans h
    rfl
  · cases heq.symm.trans h

theorem skipReason?_eq_conflict_iff :
    skipReason? sel losers i fix = some conflictReason ↔ sel.Admits fix ∧ i ∈ losers := by
  obtain ⟨hadmits, _, heq, -, hne⟩ | ⟨hadmits, ⟨hloser, heq⟩ | ⟨hloser, heq⟩⟩ := skipReason?_cases sel losers i fix
  · exact ⟨fun h => absurd (Option.some.inj (heq.symm.trans h)) hne, fun h => absurd h.1 hadmits⟩
  · exact ⟨fun _ => ⟨hadmits, hloser⟩, fun _ => heq⟩
  · exact ⟨fun h => absurd (heq.symm.trans h) nofun, fun h => absurd h.2 hloser⟩

end ViewLint.Fix
