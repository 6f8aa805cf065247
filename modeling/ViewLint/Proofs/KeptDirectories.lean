import ViewLint.Proofs.Sessions
import ViewLint.Run.Basic

/-!
# Directories that stay

Making directories removes none and makes no link, so the place that a run works in stays where it is.

* `Store.KeepsTree`: the directories are still there, and no links have come up.
* **`Session.Keeps.makeDirectories`**: the directories above a file can be made.
-/

namespace ViewLint

open Session

namespace Store

variable {s s' : Store} {cwd p : Place} {name : Text}

/-! ## Stores -/

/-- The directories are still there, and no links have come up. -/
structure KeepsTree (s s' : Store) : Prop where
  directory {p : Place} : s.IsDirectoryAt p → s'.IsDirectoryAt p
  link {p : Place} {target : Text} : s'.entry? p = some (.link target) → s.entry? p = some (.link target)

theorem KeepsTree.refl (s : Store) : KeepsTree s s := ⟨id, id⟩

theorem KeepsTree.trans {s'' : Store} (h : KeepsTree s s') (h' : KeepsTree s' s'') : KeepsTree s s'' :=
  ⟨fun hp => h'.directory (h.directory hp), fun hp => h.link (h'.link hp)⟩

theorem KeepsTree.isGrounded {here : Place} (h : KeepsTree s s') (hhere : s.IsGrounded here) : s'.IsGrounded here :=
  ⟨fun q hq hne => h.directory (hhere.above q hq hne), fun target ht => hhere.no_link target (h.link ht)⟩

theorem keepsTree_put {e : Entry} (hdir : ¬ s.IsDirectoryAt p) (he : ∀ target, e ≠ .link target) :
    KeepsTree s (s.put p e) := by
  have hp : p ≠ [] := fun hp => hdir (hp ▸ isDirectoryAt_root)
  constructor
  · intro q hq
    have hne : q ≠ p := fun heq => hdir (heq ▸ hq)
    obtain ⟨age, hq⟩ := hq
    exact ⟨age, by rw [ entry?_put s hp, if_neg hne, hq]⟩
  · intro q target hq
    rw [ entry?_put s hp] at hq
    split at hq
    · exact absurd (Option.some.inj hq) (he target)
    · exact hq

theorem entry?_drop (s : Store) (hp : p ≠ []) (q : Place) :
    Store.entry? (s.drop p) q = if q = p then none else s.entry? q := by
  rw [ entry?, entry?, drop, Fields.get?_erase]
  by_cases hq : q = []
  · simp [hq, Ne.symm hp]
  · by_cases heq : q = p
    · simp [heq, hp]
    · simp [hq, heq, Ne.symm heq]

theorem not_isDirectoryAt {follow : Bool} {e : Option Entry} (h : s.locate cwd follow name = .ok (p, e))
    (hdir : ∀ age, e ≠ some (.directory age)) : ¬ s.IsDirectoryAt p := by
  rintro ⟨age, hage⟩
  exact hdir age ((of_locate_eq_ok h).2.2.2.trans hage)

theorem keepsTree_write (pieces : List Text) : KeepsTree s (s.write cwd name pieces).1 := by
  rw [write]
  split
  · exact .refl s
  · split
    · exact .refl s
    · rename_i p e hdir hlocate
      exact keepsTree_put (not_isDirectoryAt hlocate hdir) fun _ he => by cases he
    · exact .refl s

theorem keepsTree_makeDirectory (h : s.makeDirectory cwd name = .ok s') : KeepsTree s s' := by
  rw [makeDirectory] at h
  split at h
  · cases h
  · rename_i p hlocate
    cases h
    exact keepsTree_put (not_isDirectoryAt hlocate fun _ he => by cases he) fun _ he => by cases he
  · cases h

theorem keepsTree_ensureDirectory (h : s.ensureDirectory cwd name = .ok s') : KeepsTree s s' := by
  rw [ensureDirectory] at h
  split at h
  · rename_i hmade
    cases h
    exact keepsTree_makeDirectory hmade
  · split at h
    · cases h
      exact .refl _
    · cases h

theorem keepsTree_makeAbove {depth : Nat} (h : makeAbove cwd depth s name = .ok s') : KeepsTree s s' := by
  induction depth generalizing s s' name with
  | zero => exact keepsTree_ensureDirectory h
  | succ depth ih =>
    rw [makeAbove] at h
    repeat' split at h
    all_goals first | exact (ih ‹_›).trans (keepsTree_ensureDirectory h) | cases h
    · exact keepsTree_makeDirectory ‹_›
    · exact .refl _

theorem keepsTree_makeDirectories (h : s.makeDirectories cwd name = .ok s') : KeepsTree s s' := by
  obtain ⟨-, -, h⟩ := bind_eq_ok.mp h
  split at h
  · rename_i hmade
    cases h
    exact keepsTree_makeAbove hmade
  · cases h

end Store

namespace Session

/-! ## Sessions -/

/-- The same working directory, with directories that are still there and no links that have come up. -/
structure SameTree (w v : Workspace) : Prop where
  cwd : v.cwd = w.cwd
  store : w.store.KeepsTree v.store

instance : AboutFiles SameTree where
  same h := ⟨h.cwd, h.store ▸ .refl _⟩
  trans h h' := ⟨h'.cwd.trans h.cwd, h.store.trans h'.store⟩

theorem SameTree.isGrounded {w v : Workspace} (h : SameTree w v) (hw : w.store.IsGrounded w.cwd) :
    v.store.IsGrounded v.cwd :=
  h.cwd ▸ h.store.isGrounded hw

namespace Keeps

theorem makeDirectories (name : Text) : Keeps SameTree (makeDirectories name) := by
  intro w
  rw [Session.makeDirectories, runIn_bind_of_ok (runIn_get w)]
  cases hstore : w.store.makeDirectories w.cwd name with
  | error e => exact AboutFiles.same (.refl w)
  | ok s =>
    rw [runIn_bind_of_ok (runIn_lift_ok w s)]
    exact ⟨rfl, Store.keepsTree_makeDirectories hstore⟩

end Keeps

end Session

/-! ## Names and whitelists -/

namespace Output

variable {R : Workspace → Workspace → Prop}

theorem keeps_firstFree [AboutFiles R] (names : List Text) : Keeps R (firstFree names) := by
  induction names with
  | nil => exact .pure _
  | cons name rest ih => exact .bind (.checkedExists _) fun _ => .ite ih (.pure _)

theorem keeps_unique [AboutFiles R] (path : Text) : Keeps R (unique path) :=
  .bind (.checkedExists _) fun _ => .ite (.pure _) (.bind .get fun _ => .bind (keeps_firstFree _) fun _ => .pure _)

end Output

namespace Whitelist

variable {R : Workspace → Workspace → Prop} [Session.AboutFiles R]

theorem keeps_placeOf (line : Text) : Keeps R (placeOf line) := by
  refine .bind (.attempt (.resolve _)) fun place => ?_
  split
  · exact .pure _
  · exact .fail _
  · exact .bind (.printLine _) fun _ => .pure _

theorem keeps_load (path : Text) : Keeps R (load path) := by
  have htext : Keeps R (textOf path) := .bind (.checkedExists _) fun _ => .ite (.readFile _) (.pure _)
  refine .bind (.attempt htext) fun text => ?_
  split
  · exact .bind (.filterMapM keeps_placeOf _) fun _ => .pure _
  · exact .bind (.printLine _) fun _ => .pure _
  · exact .fail _

end Whitelist

end ViewLint
