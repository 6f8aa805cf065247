import ViewLint.Proofs.Whitelists

/-!
# Files that are collected

The files of a run are found by patterns. Each pattern is looked up by itself, and what it finds is added to what has
been found before.

* **`Collect.each_once_iff`**: when every file is collected once.
* `Collect.not_always_once`: a file that is collected twice.
-/

namespace ViewLint.Collect

open List Session Text FileName Whitelist

variable {w v : Workspace} {whitelist : List Place} {patterns : Text} {c : Collected} {file : Text}

/-! ## What a run collects -/

/-- The patterns of a list. -/
def pieces (patterns : Text) : List Text := (splitOn "," patterns).map strip

/-- The views among names, in the order of the names. -/
def views (w : Workspace) (names : List Text) : List Text :=
  (names.map tidy).filter fun file => w.store.has w.cwd file && last file == viewName

/-- Whether a file is excepted. -/
def isExcepted (w : Workspace) (whitelist : List Place) (file : Text) : Bool :=
  (w.store.resolve w.cwd file).toOption.any (whitelist.contains ·)

/-- What is collected so far and some more files. -/
def extend (w : Workspace) (whitelist : List Place) (c : Collected) (files : List Text) : Collected where
  chosen := c.chosen ++ files.filter (!isExcepted w whitelist ·)
  whitelisted := c.whitelisted ++ files.filter (isExcepted w whitelist)

theorem extend_nil : extend w whitelist c [] = c := by simp [extend]

/-- Whether a name can be looked up: it is not too long, and can be resolved if it is that of a view. -/
structure IsUsable (w : Workspace) (name : Text) : Prop where
  short : w.store.locate w.cwd true (tidy name) ≠ .error .tooLong
  resolvable : ∀ file ∈ views w [name], ∃ place, w.store.resolve w.cwd file = .ok place

theorem runIn_add {place : Place} (hv : SameFiles w v) (hplace : w.store.resolve w.cwd file = .ok place)
    (c : Collected) : ∃ v', runIn v (add whitelist c file) = (.ok (extend w whitelist c [file]), v') ∧ SameFiles w v' := by
  have hresolve : runIn v (resolve file) = (.ok place, v) := by
    rw [runIn_resolve, hv.store, hv.cwd, hplace, runIn_lift_ok]
  have hexcepted : isExcepted w whitelist file = whitelist.contains place := by
    rw [isExcepted, hplace]
    rfl
  rw [add, runIn_bind_of_ok hresolve, extend, filter_singleton, filter_singleton, hexcepted]
  cases whitelist.contains place with
  | true =>
    simp only [Bool.not_true, cond_false, cond_true, append_nil, if_true]
    exact ⟨_, rfl, hv.trans ⟨rfl, rfl, rfl, rfl⟩⟩
  | false => exact ⟨v, by simp, hv⟩

/-- One name that is found. -/
def visit (whitelist : List Place) (c : Collected) (name : Text) : Session Collected := do
  let file := tidy name
  if (← checkedExists file) && last file == viewName then add whitelist c file else return c

theorem runIn_visit {name : Text} (h : IsUsable w name) (hv : SameFiles w v) (c : Collected) :
    ∃ v', runIn v (visit whitelist c name) = (.ok (extend w whitelist c (views w [name])), v') ∧ SameFiles w v' := by
  have hexists : runIn v (checkedExists (tidy name)) = (.ok (w.store.has w.cwd (tidy name)), v) := by
    rw [checkedExists, runIn_bind_of_ok (runIn_get v), hv.store, hv.cwd]
    split
    · rename_i hlong
      exact absurd hlong h.short
    · rfl
  rw [visit, runIn_bind_of_ok hexists]
  split
  · rename_i hview
    have hname : views w [name] = [tidy name] := filter_cons_of_pos hview
    obtain ⟨place, hplace⟩ := h.resolvable (tidy name) (hname ▸ mem_singleton.mpr rfl)
    rw [hname]
    exact runIn_add hv hplace c
  · rename_i hview
    have hname : views w [name] = [] := filter_cons_of_neg hview
    rw [hname, extend_nil]
    exact ⟨v, rfl, hv⟩

/-- What each step of a loop adds, the whole loop adds. -/
theorem runIn_foldlM {α : Type} {f : Collected → α → Session Collected} {g : α → List Text} {xs : List α}
    (h : ∀ x ∈ xs, ∀ {v}, SameFiles w v → ∀ c, ∃ v', runIn v (f c x) = (.ok (extend w whitelist c (g x)), v')
      ∧ SameFiles w v') (hv : SameFiles w v) (c : Collected) :
    ∃ v', runIn v (xs.foldlM f c) = (.ok (extend w whitelist c (xs.flatMap g)), v') ∧ SameFiles w v' := by
  induction xs generalizing v c with
  | nil => exact ⟨v, by rw [foldlM_nil, flatMap_nil, extend_nil]; rfl, hv⟩
  | cons x xs ih =>
    obtain ⟨hx, hxs⟩ := forall_mem_cons.mp h
    obtain ⟨u, hrun, hu⟩ := hx hv c
    obtain ⟨v', hloop, hv'⟩ := ih hxs hu (extend w whitelist c (g x))
    refine ⟨v', ?_, hv'⟩
    rw [foldlM_cons, runIn_bind_of_ok hrun, hloop, flatMap_cons]
    simp [extend]

/-- Whether patterns can be looked up, and all that they find. -/
structure AreUsable (w : Workspace) (patterns : List Text) : Prop where
  listable : ∀ pattern ∈ patterns, Wildcard.isWild pattern = true →
    Store.checkName (Wildcard.listedDirectory pattern) = .ok ()
  names : ∀ name ∈ matched w.store w.cwd patterns, IsUsable w name

/-- The views that patterns find, pattern by pattern. -/
def hits (w : Workspace) (patterns : List Text) : List Text := views w (matched w.store w.cwd patterns)

theorem views_eq_flatMap (w : Workspace) (names : List Text) : views w names = names.flatMap fun name => views w [name] := by
  induction names with
  | nil => rfl
  | cons name names ih =>
    rw [flatMap_cons, ← ih, views, views, views, ← filter_append]
    rfl

theorem runIn_found (h : AreUsable w (pieces patterns)) (whitelist : List Place) :
    ∃ w', runIn w (found whitelist patterns) = (.ok (extend w whitelist {} (hits w (pieces patterns))), w')
      ∧ SameFiles w w' := by
  have hpattern : ∀ pattern ∈ pieces patterns, ∀ {v}, SameFiles w v → ∀ c, ∃ v',
      runIn v (do (← glob pattern).foldlM (visit whitelist) c)
        = (.ok (extend w whitelist c ((w.store.glob w.cwd pattern).flatMap fun name => views w [name])), v')
      ∧ SameFiles w v' := by
    intro pattern hpattern v hv c
    rw [runIn_bind_of_ok (runIn_glob (h.listable pattern hpattern) v), hv.store, hv.cwd]
    exact runIn_foldlM (fun name hname {u} => runIn_visit (h.names name (mem_flatMap.mpr ⟨pattern, hpattern, hname⟩))) hv c
  obtain ⟨w', hrun, hw'⟩ := runIn_foldlM hpattern (.refl w) {}
  refine ⟨w', ?_, hw'⟩
  rw [hits, views_eq_flatMap, matched, flatMap_assoc]
  exact hrun

/-! ## How often a file is collected -/

/-- The places that files stand for. -/
def places (w : Workspace) (files : List Text) : List Place :=
  files.filterMap fun file => (w.store.resolve w.cwd file).toOption

/-- Files are told apart by their places. -/
theorem places_filter {q : Text → Bool} {r : Place → Bool}
    (h : ∀ file place, w.store.resolve w.cwd file = .ok place → q file = r place) (files : List Text) :
    places w (files.filter q) = (places w files).filter r := by
  induction files with
  | nil => rfl
  | cons file files ih =>
    cases hplace : w.store.resolve w.cwd file with
    | error f => by_cases hq : q file <;> simp_all [places, Except.toOption]
    | ok place =>
      have hq := h file place hplace
      by_cases hr : r place <;> simp_all [places, Except.toOption]

/-- **How often a file is collected**: once for every time that a pattern finds it, among the files to lint or among
those that are excepted. So each file is collected once if and only if none is found twice, be it by two patterns, or
by one that finds it under two names. -/
theorem each_once_iff (h : AreUsable w (pieces patterns)) (whitelist : List Place) :
    ∃ c w', runIn w (found whitelist patterns) = (.ok c, w')
      ∧ (∀ place, (places w c.chosen).count place
          = if place ∈ whitelist then 0 else (places w (hits w (pieces patterns))).count place)
      ∧ (∀ place, (places w c.whitelisted).count place
          = if place ∈ whitelist then (places w (hits w (pieces patterns))).count place else 0)
      ∧ ((∀ place ∈ places w (hits w (pieces patterns)),
          (places w (if place ∈ whitelist then c.whitelisted else c.chosen)).count place = 1)
        ↔ (places w (hits w (pieces patterns))).Nodup) := by
  obtain ⟨w', hrun, -⟩ := runIn_found h whitelist
  have hexcepted (file : Text) (place : Place) (hplace : w.store.resolve w.cwd file = .ok place) :
      isExcepted w whitelist file = whitelist.contains place := by
    rw [isExcepted, hplace]
    rfl
  have hwhitelisted : places w (extend w whitelist {} (hits w (pieces patterns))).whitelisted
      = (places w (hits w (pieces patterns))).filter whitelist.contains := places_filter hexcepted _
  have hchosen : places w (extend w whitelist {} (hits w (pieces patterns))).chosen
      = (places w (hits w (pieces patterns))).filter (!whitelist.contains ·) :=
    places_filter (fun file place hplace => congrArg (! ·) (hexcepted file place hplace)) _
  have hcount (r : Place → Bool) (place : Place) : ((places w (hits w (pieces patterns))).filter r).count place
      = if r place then (places w (hits w (pieces patterns))).count place else 0 := by
    split
    · rename_i hr
      exact count_filter hr
    · rename_i hr
      exact count_eq_zero.mpr fun hmem => hr (mem_filter.mp hmem).2
  refine ⟨_, w', hrun, fun place => ?_, fun place => ?_, ?_⟩
  · by_cases hplace : place ∈ whitelist <;> simp [hchosen, hcount, hplace]
  · by_cases hplace : place ∈ whitelist <;> simp [hwhitelisted, hcount, hplace]
  · rw [nodup_iff_count_eq_one]
    refine forall₂_congr fun place _ => ?_
    by_cases hplace : place ∈ whitelist
    · simp [hwhitelisted, hcount, hplace]
    · simp [hchosen, hcount, hplace]

/-- A view that two patterns find. -/
def oneView : Workspace where
  store := ⟨[(["a"], .directory (.ofInt 60)), (["a", "view.json"], .file "\x7b\x7d" (.ofInt 60))]⟩
  cwd := []

def twoPatterns : Text := "a/view.json, */view.json"

theorem areUsable_oneView : AreUsable oneView (pieces twoPatterns) := by
  have hpieces : pieces twoPatterns = ["a/view.json", "*/view.json"] := by decide +kernel
  have hmatched : matched oneView.store oneView.cwd (pieces twoPatterns) = ["a/view.json", "a/view.json"] := by
    decide +kernel
  refine ⟨fun pattern hpattern _ => ?_, fun name hname => ?_⟩
  · obtain rfl | rfl : pattern = "a/view.json" ∨ pattern = "*/view.json" := by simpa [hpieces] using hpattern
    all_goals rfl
  · obtain rfl : name = "a/view.json" := by simpa [hmatched] using hname
    refine ⟨nofun, fun file hfile => ⟨["a", "view.json"], ?_⟩⟩
    obtain rfl := mem_singleton.mp (mem_of_mem_filter hfile)
    rfl

theorem each_once_iff_oneView : AreUsable oneView (pieces twoPatterns) ∧ ∃ c w',
    runIn oneView (found [] twoPatterns) = (.ok c, w')
      ∧ ((∀ place ∈ places oneView (hits oneView (pieces twoPatterns)),
          (places oneView (if place ∈ ([] : List Place) then c.whitelisted else c.chosen)).count place = 1)
        ↔ (places oneView (hits oneView (pieces twoPatterns))).Nodup) := by
  obtain ⟨c, w', hrun, -, -, hiff⟩ := each_once_iff areUsable_oneView []
  exact ⟨areUsable_oneView, c, w', hrun, hiff⟩

/-- A view is collected twice. -/
theorem not_always_once : ¬ ∀ (w w' : Workspace) (whitelist : List Place) (patterns : Text) (c : Collected),
    runIn w (found whitelist patterns) = (.ok c, w') → (places w c.chosen).Nodup := by
  intro hall
  have hrun : ∃ c w', runIn oneView (found [] twoPatterns) = (.ok c, w') ∧ ¬ (places oneView c.chosen).Nodup := by
    decide +kernel
  obtain ⟨c, w', hrun, htwice⟩ := hrun
  exact htwice (hall _ _ _ _ _ hrun)

end ViewLint.Collect
