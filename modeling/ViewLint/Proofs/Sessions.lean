import ViewLint.Proofs.Files
import ViewLint.Session

/-!
# What sessions do

An action in a workspace gives a result, or the reason why it stops, and the workspace that it leaves.

* **`Session.runIn_bind_eq_ok`**: two actions give a result exactly if each of them does.
-/

namespace ViewLint.Session

open List

variable {α β : Type} {w w' : Workspace} {x : Session α} {a : α} {f : α → Session β} {P : α → Prop}
  {name text : Text} {r : Except Fault α}

/-! ## Actions put together -/

@[simp] theorem runIn_pure (w : Workspace) (a : α) : runIn w (pure a) = (.ok a, w) := rfl

theorem runIn_bind (w : Workspace) (x : Session α) (f : α → Session β) : runIn w (x >>= f) = match runIn w x with
      | (.ok a, w') => runIn w' (f a)
      | (.error e, w') => (.error e, w') := by
  have hbind : runIn w (x >>= f) = ExceptT.bindCont f (runIn w x).1 (runIn w x).2 := rfl
  rw [hbind]
  rcases runIn w x with ⟨_ | _, _⟩ <;> rfl

theorem runIn_bind_of_ok (h : runIn w x = (.ok a, w')) (f : α → Session β) : runIn w (x >>= f) = runIn w' (f a) := by
  rw [runIn_bind, h]

theorem runIn_bind_eq_ok {b : β} :
    runIn w (x >>= f) = (.ok b, w') ↔ ∃ a v, runIn w x = (.ok a, v) ∧ runIn v (f a) = (.ok b, w') := by
  rw [runIn_bind]
  rcases runIn w x with ⟨e | a, v⟩
  · exact ⟨nofun, fun ⟨_, _, h, _⟩ => nomatch h⟩
  · refine ⟨fun h => ⟨a, v, rfl, h⟩, fun ⟨_, _, h, hf⟩ => ?_⟩
    cases h
    exact hf

theorem runIn_tryCatch (w : Workspace) (x : Session α) (handle : Stop → Session α) :
    runIn w (tryCatch x handle) = match runIn w x with
      | (.ok a, w') => (.ok a, w')
      | (.error e, w') => runIn w' (handle e) := by
  have hcatch : runIn w (tryCatch x handle) = (ExceptT.tryCatch x handle).run.run w := rfl
  rw [hcatch, ExceptT.tryCatch]
  simp only [ExceptT.run_mk, StateT.run_bind]
  change (runIn w x >>= _ : Id _) = _
  rcases runIn w x with ⟨_ | _, _⟩ <;> rfl

theorem runIn_attempt (w : Workspace) (x : Session α) : runIn w (attempt x) = match runIn w x with
      | (.ok a, w') => (.ok (.ok a), w')
      | (.error (.fault f), w') => (.ok (.error f), w')
      | (.error (.exit code), w') => (.error (.exit code), w') := by
  rw [attempt, runIn_tryCatch, runIn_bind]
  rcases runIn w x with ⟨(_ | _) | _, _⟩ <;> rfl

/-- What an action gives can be told from its result alone. -/
theorem runIn_eq_ok_iff : (∃ w', runIn w x = (.ok a, w')) ↔ (runIn w x).1.toOption = some a := by
  rcases runIn w x with ⟨e | b, v⟩ <;> simp [Except.toOption]

instance {P : α → Workspace → Prop} [∀ a v, Decidable (P a v)] :
    Decidable (∃ a w', runIn w x = (.ok a, w') ∧ P a w') :=
  match runIn w x with
  | (.ok a, v) => decidable_of_iff (P a v) (by simp)
  | (.error _, _) => isFalse (by simp)

/-! ## Results with a property -/

/-- An action all of whose results have a property. -/
def Gives (P : α → Prop) (x : Session α) : Prop := ∀ ⦃w a w'⦄, runIn w x = (.ok a, w') → P a

theorem Gives.pure (h : P a) : Gives P (pure a) := by
  intro w b w' hb
  cases hb
  exact h

theorem Gives.bind {P : β → Prop} {Q : α → Prop} (hx : Gives Q x)
    (hf : ∀ a, Q a → Gives P (f a)) : Gives P (x >>= f) := by
  intro w b w' hb
  obtain ⟨a, v, ha, hb⟩ := runIn_bind_eq_ok.mp hb
  exact hf a (hx ha) hb

theorem Gives.after {P : β → Prop} (hf : ∀ a, Gives P (f a)) : Gives P (x >>= f) :=
  .bind (Q := fun _ => True) (fun _ _ _ _ => trivial) fun a _ => hf a

theorem Gives.lift (h : ∀ a, r = .ok a → P a) : Gives P (lift r) := by
  intro w a w' ha
  cases r with
  | error f => cases ha
  | ok b =>
    cases ha
    exact h a rfl

theorem Gives.attempt (h : Gives P x) : Gives (fun r => ∀ a, r = .ok a → P a) (attempt x) := by
  intro w r w' hr a hra
  subst hra
  rw [runIn_attempt] at hr
  rcases hrun : runIn w x with ⟨(f | code) | b, v⟩ <;> rw [hrun] at hr <;> cases hr
  exact h hrun

theorem Gives.fail (f : Fault) : Gives P (fail f) := nofun

/-- What follows an action need only agree on its results. -/
theorem Gives.bind_congr {g : α → Session β} (hx : Gives P x) (hfg : ∀ a, P a → f a = g a) : x >>= f = x >>= g := by
  refine funext fun w => ?_
  change runIn w (x >>= f) = runIn w (x >>= g)
  rw [runIn_bind, runIn_bind]
  rcases hrun : runIn w x with ⟨e | a, v⟩
  · rfl
  · exact congrArg (runIn v) (hfg a (hx hrun))

/-- What each step of a loop keeps, the whole loop keeps. -/
theorem Gives.foldlM {P : β → Prop} {f : β → α → Session β} (hf : ∀ b a, P b → Gives P (f b a)) (xs : List α) {b : β}
    (hb : P b) : Gives P (xs.foldlM f b) := by
  induction xs generalizing b with
  | nil => exact .pure hb
  | cons x xs ih =>
    rw [foldlM_cons]
    exact .bind (hf b x hb) fun b' hb' => ih hb'

/-! ## Single actions -/

section

variable (w : Workspace)

@[simp] theorem runIn_get : runIn w (get : Session Workspace) = (.ok w, w) := rfl

@[simp] theorem runIn_lift_ok (a : α) : runIn w (lift (.ok a)) = (.ok a, w) := rfl

@[simp] theorem runIn_lift_error (f : Fault) : runIn w (lift (.error f) : Session α) = (.error (.fault f), w) := rfl

theorem runIn_lift_eq_ok {w : Workspace} : runIn w (lift r) = (.ok a, w') ↔ r = .ok a ∧ w = w' := by
  cases r <;> simp

@[simp] theorem runIn_printLine (text : Text) :
    runIn w (printLine text) = (.ok (), { w with out := w.out ++ (text ++ "\n") }) := rfl

theorem runIn_printLines (lines : List Text) : runIn w (printLines lines) =
      (.ok (), { w with out := w.out ++ (lines.map (· ++ Text.ofString "\n")).flatten }) := by
  induction lines generalizing w with
  | nil => rw [map_nil, flatten_nil, append_nil]; rfl
  | cons line lines ih =>
    have hcons : printLines (line :: lines) = (do printLine line; printLines lines) := rfl
    rw [hcons, runIn_bind, runIn_printLine]
    simp only [ih, map_cons, flatten_cons, append_assoc]

theorem runIn_resolve (name : Text) : runIn w (resolve name) = runIn w (lift (w.store.resolve w.cwd name)) := rfl

theorem runIn_readFile (name : Text) : runIn w (readFile name) = runIn w (lift (w.store.read w.cwd name)) := rfl

theorem runIn_makeDirectories (name : Text) :
    runIn w (makeDirectories name) = match w.store.makeDirectories w.cwd name with
      | .ok store => (.ok (), { w with store })
      | .error f => (.error (.fault f), w) := by
  rw [makeDirectories, runIn_bind, runIn_get]
  simp only [runIn_bind]
  cases w.store.makeDirectories w.cwd name <;> rfl

theorem runIn_writePieces (name : Text) (pieces : List Text) : runIn w (writePieces name pieces) =
      runIn { w with store := (w.store.write w.cwd name pieces).1 } (lift (w.store.write w.cwd name pieces).2) := rfl

theorem runIn_writePieces_eq_ok {w : Workspace} {pieces : List Text} :
    runIn w (writePieces name pieces) = (.ok (), w') ↔ (w.store.write w.cwd name pieces).2 = .ok () ∧
        w' = { w with store := (w.store.write w.cwd name pieces).1 } := by
  rw [runIn_writePieces]
  cases (w.store.write w.cwd name pieces).2 with
  | error f => simp
  | ok u => simp [eq_comm]

end

theorem runIn_checkedExists_of_content?
    (h : w.store.content? w.cwd name = some text) : runIn w (checkedExists name) = (.ok true, w) := by
  obtain ⟨-, place, age, hlocate⟩ := Store.content?_eq_some_iff.mp h
  rw [checkedExists, runIn_bind_of_ok (runIn_get w)]
  simp only [hlocate, Store.has, Store.find?]
  rfl

theorem runIn_attempt_readFile_of_content? (h : w.store.content? w.cwd name = some text) :
    runIn w (attempt (readFile name)) = (.ok (.ok (Text.normalizeBreaks text)), w) := by
  rw [runIn_attempt, runIn_readFile, Store.read_of_content? h]
  rfl

theorem runIn_globIn (w : Workspace) {directory step : Text} (hstep : Text.holds step "**" = false) :
    runIn w (globIn directory step) = (.ok (w.store.globIn w.cwd directory step), w) := by
  rw [globIn, runIn_bind_of_ok (runIn_get w)]
  simp only [hstep]
  rfl

/-- The names in the root are found from the root itself. -/
theorem namesIn_root (s : Store) : s.namesIn [] "." false = s.list [] := by
  obtain ⟨age, hroot⟩ := @Store.isDirectoryAt_root s
  have hlocate : s.locate [] true "." = .ok ([], some (.directory age)) :=
    hroot ▸ (Store.Walks.stay Store.isDirectoryAt_root .stop).walk
  rw [Store.namesIn, if_neg (by decide), hlocate]
  simp only [Bool.not_false, Bool.true_or, filter_true]

/-! ## Lines up to a fault -/

theorem upToFault_eq_ok_iff {lines : List (Except Fault α)} {items : List α} :
    upToFault lines = (items, .ok ()) ↔ lines = items.map .ok := by
  induction lines generalizing items with
  | nil => cases items <;> simp [upToFault]
  | cons line lines ih =>
    cases line with
    | error f => cases items <;> simp [upToFault]
    | ok a =>
      cases items with
      | nil => simp [upToFault]
      | cons b items =>
        simp only [upToFault, map_cons, Prod.mk.injEq, cons.injEq, Except.ok.injEq]
        rw [← ih, Prod.ext_iff, and_assoc]

theorem runIn_writeLines (w : Workspace) (name : Text) (lines : List Text) :
    runIn w (writeLines name lines) = runIn w (writePieces name (lines.map (· ++ Text.ofString "\n"))) := rfl

theorem content?_of_writeLines {lines : List Text}
    (hground : FileName.isAbsolute name = true ∨ w.store.IsGrounded w.cwd)
    (h : runIn w (writeLines name lines) = (.ok (), w')) :
    w'.store.content? w'.cwd name = some (lines.map (· ++ Text.ofString "\n")).flatten := by
  rw [runIn_writeLines, runIn_writePieces_eq_ok] at h
  obtain ⟨hok, rfl⟩ := h
  exact Store.content?_of_write_ok hground hok

/-- A file is written line by line exactly if each line can be put together and the file takes them all. -/
theorem runIn_writeUntil_eq_ok {lines : List (Except Fault Text)} : runIn w (writeUntil name lines) = (.ok (), w') ↔
      ∃ texts : List Text, lines = texts.map .ok ∧ runIn w (writeLines name texts) = (.ok (), w') := by
  rcases hlines : upToFault lines with ⟨texts, result⟩
  have hrun : writeUntil name lines = (do writeLines name texts; lift result) := by
    rw [writeUntil, hlines]
  rw [hrun, runIn_bind_eq_ok]
  constructor
  · rintro ⟨⟨⟩, v, hwrite, hresult⟩
    cases result with
    | error f => cases hresult
    | ok u =>
      cases hresult
      exact ⟨texts, upToFault_eq_ok_iff.mp hlines, hwrite⟩
  · rintro ⟨others, hok, hwrite⟩
    cases hlines.symm.trans (upToFault_eq_ok_iff.mpr hok)
    exact ⟨(), w', hwrite, rfl⟩

/-! ## What actions keep -/

/-- Workspaces with the same files, working directory and time. -/
structure SameFiles (w v : Workspace) : Prop where
  store : v.store = w.store
  cwd : v.cwd = w.cwd
  date : v.date = w.date
  time : v.time = w.time

theorem SameFiles.refl (w : Workspace) : SameFiles w w := ⟨rfl, rfl, rfl, rfl⟩

theorem SameFiles.trans {u v : Workspace} (h : SameFiles u v) (h' : SameFiles v w) : SameFiles u w :=
  ⟨h'.store.trans h.store, h'.cwd.trans h.cwd, h'.date.trans h.date, h'.time.trans h.time⟩

/-- A relation between workspaces that is about files, and that goes from step to step. -/
class AboutFiles (R : Workspace → Workspace → Prop) : Prop where
  same {w v : Workspace} : SameFiles w v → R w v
  trans {u v w : Workspace} : R u v → R v w → R u w

instance : AboutFiles SameFiles := ⟨id, SameFiles.trans⟩

/-- An action after which the workspace is related to the one before. -/
def Keeps (R : Workspace → Workspace → Prop) (x : Session α) : Prop := ∀ w, R w (runIn w x).2

theorem Keeps.of_eq_ok {R : Workspace → Workspace → Prop} (hx : Keeps R x) (h : runIn w x = (.ok a, w')) : R w w' := by
  have hw := hx w
  rwa [h] at hw

theorem Keeps.attempt {R : Workspace → Workspace → Prop} (hx : Keeps R x) : Keeps R (attempt x) := by
  intro w
  have hstart := hx w
  rw [runIn_attempt]
  rcases hrun : runIn w x with ⟨(f | code) | a, v⟩ <;>
  · rw [hrun] at hstart
    exact hstart

theorem Keeps.ite {R : Workspace → Workspace → Prop} {c : Prop} [Decidable c] {y : Session α} (hx : Keeps R x)
    (hy : Keeps R y) : Keeps R (if c then x else y) := by
  split
  · exact hx
  · exact hy

namespace Keeps

variable {x : Session α} {R : Workspace → Workspace → Prop} [AboutFiles R]

theorem pure (a : α) : Keeps R (pure a) := fun w => AboutFiles.same (.refl w)

theorem fail (f : Fault) : Keeps R (fail f : Session α) := fun w => AboutFiles.same (.refl w)

theorem get : Keeps R (MonadState.get : Session Workspace) := fun w => AboutFiles.same (.refl w)

theorem lift (r : Except Fault α) : Keeps R (lift r) := by
  intro w
  cases r <;> exact AboutFiles.same (.refl w)

theorem printLine (text : Text) : Keeps R (printLine text) := fun _ => AboutFiles.same ⟨rfl, rfl, rfl, rfl⟩

theorem bind (hx : Keeps R x) (hf : ∀ a, Keeps R (f a)) : Keeps R (x >>= f) := by
  intro w
  have hstart := hx w
  rw [runIn_bind]
  rcases hrun : runIn w x with ⟨e | a, v⟩
  · rw [hrun] at hstart
    exact hstart
  · rw [hrun] at hstart
    exact AboutFiles.trans hstart (hf a v)

/-! ### Loops -/

theorem forM {f : α → Session PUnit} (hf : ∀ a, Keeps R (f a)) (xs : List α) : Keeps R (xs.forM f) := by
  induction xs with
  | nil => exact pure _
  | cons x xs ih => exact bind (hf x) fun _ => ih

theorem filterMapM {f : α → Session (Option β)} (hf : ∀ a, Keeps R (f a)) (xs : List α) :
    Keeps R (xs.filterMapM f) := by
  induction xs with
  | nil => exact pure _
  | cons x xs ih =>
    rw [filterMapM_cons]
    refine bind (hf x) fun r => ?_
    cases r with
    | none => exact ih
    | some b => exact bind ih fun _ => pure _

/-! ### Looking and asking -/

theorem readFile (name : Text) : Keeps R (readFile name) := bind get fun _ => lift _

theorem resolve (name : Text) : Keeps R (resolve name) := bind get fun _ => lift _

theorem checkedExists (name : Text) : Keeps R (checkedExists name) := by
  refine bind get fun w => ?_
  split
  · exact fail _
  · exact pure _

theorem globIn (directory step : Text) : Keeps R (globIn directory step) := by
  refine bind get fun w => ?_
  split
  · exact bind (fail _) fun _ => pure _
  · exact pure _

theorem glob (pattern : Text) : Keeps R (glob pattern) := by
  refine bind get fun w => ?_
  split
  · exact bind (lift _) fun _ => pure _
  · exact pure _

end Keeps

end ViewLint.Session
