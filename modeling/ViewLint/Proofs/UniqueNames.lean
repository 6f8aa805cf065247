import Mathlib.Data.List.Nodup
import Mathlib.Data.List.Perm.Subperm
import ViewLint.Proofs.Listings
import ViewLint.Proofs.Sessions
import ViewLint.Run.Output

/-!
# Names for further output files

The search for a free name asks for one candidate after the other. A candidate that leads somewhere has an entry of
its own in the store, so that one of them is free before there are more of them than entries.

* **`Output.exists_free`**: one of the candidates is free.
* **`Output.unique_first_free`**: the search ends at the first free name, which it gives unless it is too long.
-/

namespace ViewLint

open List Text FileName Session

variable {s : Store} {cwd : Place} {n path name : Text} {w : Workspace}

/-! ## Entries of names -/

namespace Store

/-- Whether a name is too long to be looked up. -/
def refuses (s : Store) (cwd : Place) (name : Text) : Bool :=
  match s.locate cwd true name with
  | .error .tooLong => true
  | _ => false

/-- What is found beside a file has an entry that ends in its name, be it a link. -/
theorem mem_entries_of_has (hn : IsStep n) (hup : n ≠ "..") (h : s.has cwd (child (parent path) n) = true) :
    some n ∈ s.entries.map (·.1.getLast?) := by
  rw [has, find?] at h
  rcases hlocate : s.locate cwd true (child (parent path) n) with t | ⟨q, _ | e⟩ <;> rw [hlocate] at h
  · cases h
  · cases h
  obtain ⟨-, -, hwalks, hentry⟩ := of_locate_eq_ok hlocate
  obtain ⟨r, hr, hfound⟩ := hwalks.unfollowed (by rw [← hentry]; exact Option.some_ne_none e)
  rw [child_parent hn, walkSteps_ofSteps_root (root_cases path) fun _ => isStep_of_mem_neighbour hn,
    if_neg (concat_ne_nil _ _)] at hr
  have hlast := (hr.last_step rfl hn.ne_stay hup).2 rfl
  obtain ⟨e', he'⟩ := Option.ne_none_iff_exists'.mp hfound
  rw [Store.entry?, if_neg (by rintro hnil; simp [isEmpty_iff.mp hnil] at hlast)] at he'
  exact mem_map.mpr ⟨_, Fields.mem_of_get?_eq_some he', hlast⟩

end Store

namespace Output

/-! ## Candidates -/

def batchStep (path : Text) (pid k : Nat) : Text :=
  stem path ++ "_pid" ++ natText pid ++ "_batch" ++ natText k ++ suffix path

theorem stem_append_suffix (path : Text) : stem path ++ suffix path = last path := by
  rw [stem, suffix, stemAndSuffix]
  split
  · rename_i hcut
    split
    · exact append_nil _
    · rw [rcut?_eq_some hcut, append_assoc]
  · exact append_nil _

theorem isStep_batchStep (path : Text) (pid k : Nat) : IsStep (batchStep path pid k) ∧ batchStep path pid k ≠ ".." := by
  have hmark : .char '_' ∈ batchStep path pid k := by simp [batchStep, ofString]
  have hne {t : Text} (ht : .char '_' ∉ t) : batchStep path pid k ≠ t := fun h => ht (h ▸ hmark)
  have hlast : .char '/' ∉ stem path ++ suffix path := by
    rw [stem_append_suffix, last]
    cases h : (steps path).getLast? with
    | none => decide
    | some step => exact (isStep_of_mem_steps (mem_of_getLast? h)).no_slash
  have hnumber := not_mem_natText '/' rfl
  refine ⟨⟨?_, hne (by simp), hne (by decide)⟩, hne (by decide)⟩
  rw [mem_append, not_or] at hlast
  simp [batchStep, ofString, hlast, hnumber]

theorem exists_free (s : Store) (cwd : Place) (path : Text) (pid : Nat) :
    ∃ k ∈ range' 1 (s.entries.length + 1), s.has cwd (batchName path pid k) = false := by
  by_contra hnone
  -- More names than entries, and each of them ends one.
  have hnodup := (nodup_range' (s := 1) (n := s.entries.length + 1)).map (f := some ∘ batchStep path pid)
    fun _ _ h => natText_inj (append_cancel_left (append_cancel_right (Option.some.inj h)))
  have hsubset : (range' 1 (s.entries.length + 1)).map (some ∘ batchStep path pid) ⊆ s.entries.map (·.1.getLast?) := by
    intro name hname
    obtain ⟨k, hk, rfl⟩ := mem_map.mp hname
    obtain ⟨hstep, hup⟩ := isStep_batchStep path pid k
    refine @Store.mem_entries_of_has s cwd _ path hstep hup ?_
    by_contra hfree
    exact hnone ⟨k, hk, Bool.eq_false_iff.mpr hfree⟩
  have hle := (hnodup.subperm hsubset).length_le
  rw [length_map, length_map, length_range'] at hle
  omega

/-! ## The search -/

theorem runIn_bind_checkedExists {α : Type} (name : Text) (f : Bool → Session α) :
    runIn w (checkedExists name >>= f) = if w.store.refuses w.cwd name then
      (.error (.fault (.storage (.nameTooLong name))), w) else runIn w (f (w.store.has w.cwd name)) := by
  rw [checkedExists, bind_assoc, runIn_bind_of_ok (runIn_get w), Store.refuses]
  rcases w.store.locate w.cwd true name with (_ | _ | _ | _) | _ <;> rfl

theorem not_refuses_of_has (h : w.store.has w.cwd name = true) : ¬ w.store.refuses w.cwd name = true := by
  cases hlocate : w.store.locate w.cwd true name with
  | ok r => simp [Store.refuses, hlocate]
  | error t => simp [Store.has, Store.find?, hlocate] at h

theorem runIn_firstFree (f : Nat → Text) {i count : Nat} (hfree : ∃ k ∈ range' i count, w.store.has w.cwd (f k) = false) :
    ∃ k ≥ i, w.store.has w.cwd (f k) = false ∧ (∀ m ≥ i, m < k → w.store.has w.cwd (f m) = true)
      ∧ runIn w (firstFree ((range' i count).map f)) = if w.store.refuses w.cwd (f k) then
        (.error (.fault (.storage (.nameTooLong (f k)))), w) else (.ok (some (f k)), w) := by
  induction count generalizing i with
  | zero => simp at hfree
  | succ count ih =>
    rw [range'_succ] at hfree ⊢
    rw [map_cons, firstFree, runIn_bind_checkedExists]
    cases hi : w.store.has w.cwd (f i) with
    | false => exact ⟨i, Nat.le_refl i, hi, fun m hm hlt => by omega, rfl⟩
    | true =>
      obtain ⟨k, hk, hfree, hleast, hrun⟩ := ih (by simpa only [mem_cons, exists_eq_or_imp, hi, Bool.true_eq_false, false_or] using hfree)
      refine ⟨k, Nat.le_of_succ_le hk, hfree, fun m hm hlt => ?_, ?_⟩
      · obtain rfl | hm := Nat.eq_or_lt_of_le hm
        · exact hi
        · exact hleast m hm hlt
      · rw [if_neg (not_refuses_of_has hi)]
        exact hrun

/-- **The search for a free name ends**, whatever is in the store: at the name itself if it is free, and else at the
first free candidate. This name is given, unless it is longer than names may be. -/
theorem unique_first_free (w : Workspace) (path : Text) : ∃ name, w.store.has w.cwd name = false
    ∧ (name = path ∨ w.store.has w.cwd path = true ∧ ∃ k ≥ 1, name = batchName path w.pid k
      ∧ ∀ m ≥ 1, m < k → w.store.has w.cwd (batchName path w.pid m) = true)
    ∧ runIn w (unique path) = if w.store.refuses w.cwd name then
      (.error (.fault (.storage (.nameTooLong name))), w) else (.ok name, w) := by
  cases hpath : w.store.has w.cwd path with
  | false =>
    refine ⟨path, hpath, .inl rfl, ?_⟩
    rw [unique, runIn_bind_checkedExists, hpath]
    rfl
  | true =>
    obtain ⟨k, hk, hfree, hleast, hrun⟩ := runIn_firstFree _ (exists_free w.store w.cwd path w.pid)
    refine ⟨_, hfree, .inr ⟨rfl, k, hk, rfl, hleast⟩, ?_⟩
    rw [unique, runIn_bind_checkedExists, if_neg (not_refuses_of_has hpath), hpath]
    change runIn w (firstFree (candidates w path) >>= fun found => pure (found.getD path)) = _
    rw [runIn_bind, candidates, hrun]
    cases w.store.refuses w.cwd (batchName path w.pid k) <;> rfl

/-- A store with a file whose name leaves no room for a longer one. -/
def longNamed : Workspace :=
  { store := ⟨[([repeated 240 "r" ++ ".txt"], .file "" (.zero false))]⟩, cwd := [], pid := 12345 }

/-- **A free name need not be given**: the candidate may be too long. -/
theorem unique_refused : ¬ ∀ (w : Workspace) (path : Text), ∃ name, w.store.has w.cwd name = false
    ∧ runIn w (unique path) = (.ok name, w) := by
  intro h
  obtain ⟨name, -, hname⟩ := h longNamed (repeated 240 "r" ++ ".txt")
  have hstops : (runIn longNamed (unique (repeated 240 "r" ++ ".txt"))).1.toOption = none := by decide +kernel
  rw [hname] at hstops
  cases hstops

end Output

end ViewLint
