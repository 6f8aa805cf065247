import ViewLint.Proofs.BatchFiles
import ViewLint.Proofs.KeptDirectories

/-!
# Files that are removed

A clean-up finds names by a pattern and removes what they lead to, one after the other. Names that lead nowhere, or
to a directory, are passed over.

* **`Store.entry?_removeAll`**, **`Store.removeAll_of_unlinks`**: what is gone afterwards.
-/

namespace ViewLint

open List Session FileName

/-! ## Walks in a store from which something is gone -/

namespace Store

variable {s s' : Store} {cwd p r : Place} {name : Text} {names : List Text}

section

variable {follow : Bool} {links : Nat} {here : Place} {steps : List Text}

theorem Walks.of_fewer (hfewer : ∀ q e, s'.entry? q = some e → s.entry? q = some e)
    (h : Walks s' follow links here steps p) (hsome : s'.entry? p ≠ none) : Walks s follow links here steps p := by
  have hdir {q : Place} (hq : s'.IsDirectoryAt q) : s.IsDirectoryAt q := hq.imp fun age => hfewer q _
  induction h with
  | stop => exact .stop
  | stay hhere _ ih => exact .stay (hdir hhere) (ih hsome)
  | up hhere _ ih => exact .up (hdir hhere) (ih hsome)
  | vacant _ _ hnone => exact absurd hnone hsome
  | atLink hhere hdown hlink hfollow => exact .atLink (hdir hhere) hdown (hfewer _ _ hlink) hfollow
  | link hhere hdown hlink hfollow _ ih => exact .link (hdir hhere) hdown (hfewer _ _ hlink) hfollow (ih hsome)
  | enter hhere hdown hentry hlink _ ih => exact .enter (hdir hhere) hdown (hfewer _ _ hentry) hlink (ih hsome)

/-- A walk passes directories and links, so it does not miss a file that is not at its end. -/
theorem Walks.of_kept (hkept : ∀ q e, s.entry? q = some e → (∀ text age, e ≠ .file text age) → s'.entry? q = some e)
    (h : Walks s follow links here steps p) (hend : s'.entry? p = s.entry? p) : Walks s' follow links here steps p := by
  have hdir {q : Place} (hq : s.IsDirectoryAt q) : s'.IsDirectoryAt q :=
    hq.imp fun age hage => hkept q _ hage fun _ _ h => nomatch h
  induction h with
  | stop => exact .stop
  | stay hhere _ ih => exact .stay (hdir hhere) (ih hend)
  | up hhere _ ih => exact .up (hdir hhere) (ih hend)
  | vacant hhere hdown hnone => exact .vacant (hdir hhere) hdown (hend.trans hnone)
  | atLink hhere hdown hlink hfollow => exact .atLink (hdir hhere) hdown (hend.trans hlink) hfollow
  | link hhere hdown hlink hfollow _ ih =>
    exact .link (hdir hhere) hdown (hkept _ _ hlink fun _ _ h => nomatch h) hfollow (ih hend)
  | @enter links here p step rest e hhere hdown hentry hlink hrest ih =>
    have hentry' : s'.entry? (here ++ [step]) = some e := by
      by_cases hnil : rest = []
      · subst hnil
        cases hrest
        rw [hend, hentry]
      · obtain ⟨age, hage⟩ := hrest.isDirectoryAt hnil
        rw [hkept _ _ hage (fun _ _ h => nomatch h), ← hage, hentry]
    exact .enter (hdir hhere) hdown hentry' hlink (ih hend)

end

/-! ## Removing one name after the other -/

/-- A name leads to a file or a link, which goes if the name is removed. -/
structure Unlinks (s : Store) (cwd : Place) (name : Text) (p : Place) : Prop where
  possible : checkName name = .ok ()
  leads : ∃ e, s.locate cwd false name = .ok (p, some e)
  no_directory : ¬ s.IsDirectoryAt p

theorem Unlinks.ne_root (h : s.Unlinks cwd name p) : p ≠ [] := by
  rintro rfl
  exact h.no_directory isDirectoryAt_root

theorem Unlinks.isSome (h : s.Unlinks cwd name p) : ( s.entry? p).isSome = true := by
  obtain ⟨e, he⟩ := h.leads
  rw [← (of_locate_eq_ok he).2.2.2]
  rfl

theorem Unlinks.unique (h : s.Unlinks cwd name p) (h' : s.Unlinks cwd name r) : p = r := by
  obtain ⟨e, he⟩ := h.leads
  obtain ⟨e', he'⟩ := h'.leads
  exact (Prod.mk.inj (Except.ok.inj (he.symm.trans he'))).1

theorem remove_of_unlinks (h : s.Unlinks cwd name p) : s.remove cwd name = .ok (s.drop p) := by
  obtain ⟨e, he⟩ := h.leads
  rw [remove, h.possible, he]
  cases e with
  | directory age => exact absurd ⟨age, (of_locate_eq_ok he).2.2.2.symm⟩ h.no_directory
  | file | link => rfl

theorem unlinks_of_remove (h : s.remove cwd name = .ok s') : ∃ p, s.Unlinks cwd name p ∧ s' = s.drop p := by
  obtain ⟨⟨⟩, hname, h⟩ := bind_eq_ok.mp h
  split at h
  · cases h
  · rename_i p e hdir hlocate
    cases h
    exact ⟨p, ⟨hname, ⟨e, hlocate⟩, not_isDirectoryAt hlocate fun age he => hdir age (Option.some.inj he)⟩, rfl⟩
  · cases h
  · cases h

theorem Unlinks.of_walks (h : s.Unlinks cwd name p) (hsome : ( s'.entry? p).isSome = true) (hdir : ¬ s'.IsDirectoryAt p)
    (hwalks : Walks s' false linkLimit (if isAbsolute name then [] else cwd) (walkSteps name) p) :
    s'.Unlinks cwd name p := by
  obtain ⟨e, he⟩ := h.leads
  obtain ⟨hne, hsize, -, -⟩ := of_locate_eq_ok he
  obtain ⟨e', he'⟩ := Option.isSome_iff_exists.mp hsome
  refine ⟨h.possible, ⟨e', ?_⟩, hdir⟩
  rw [locate, if_neg (by simpa using hne), if_neg (by omega), hwalks.walk, he']

theorem Unlinks.of_drop (hr : s.Unlinks cwd name r) {name' : Text} (h : (s.drop r).Unlinks cwd name' p) :
    s.Unlinks cwd name' p := by
  have hfewer (q : Place) (e : Entry) (hq : Store.entry? (s.drop r) q = some e) : s.entry? q = some e := by
    rw [ entry?_drop s hr.ne_root] at hq
    split at hq
    · cases hq
    · exact hq
  obtain ⟨e, he⟩ := h.leads
  obtain ⟨-, -, hwalks, hp⟩ := of_locate_eq_ok he
  have hp : Store.entry? (s.drop r) p = some e := hp.symm
  refine h.of_walks (by rw [hfewer p e hp]; rfl) (fun hdir => ?_) (hwalks.of_fewer hfewer (by simp [hp]))
  obtain ⟨age, hage⟩ := hdir
  exact h.no_directory ⟨age, by rw [hp, ← hfewer p e hp, hage]⟩

theorem Unlinks.drop (h : s.Unlinks cwd name p) (hne : p ≠ r) {text : Text} {age : Binary64}
    (hr : s.entry? r = some (.file text age)) : (s.drop r).Unlinks cwd name p := by
  have hroot : r ≠ [] := by
    rintro rfl
    cases hr
  obtain ⟨e, he⟩ := h.leads
  obtain ⟨-, -, hwalks, -⟩ := of_locate_eq_ok he
  have hp : Store.entry? (s.drop r) p = s.entry? p := by rw [ entry?_drop s hroot, if_neg hne]
  refine h.of_walks (by rw [hp, h.isSome]) (fun hdir => h.no_directory ?_) (hwalks.of_kept (fun q e hq hfile => ?_) hp)
  · obtain ⟨age, hage⟩ := hdir
    exact ⟨age, hp ▸ hage⟩
  · rw [ entry?_drop s hroot, if_neg, hq]
    rintro rfl
    exact hfile text age (Option.some.inj (hq.symm.trans hr))

def removeAll (s : Store) (cwd : Place) (names : List Text) : Store :=
  names.foldl (fun s name => (s.remove cwd name).toOption.getD s) s

theorem entry?_removeAll (s : Store) (cwd : Place) (names : List Text) (p : Place) :
    Store.entry? (s.removeAll cwd names) p = s.entry? p
      ∨ Store.entry? (s.removeAll cwd names) p = none ∧ ∃ name ∈ names, s.Unlinks cwd name p := by
  induction names generalizing s with
  | nil => exact .inl rfl
  | cons name names ih =>
    rw [removeAll, foldl_cons]
    cases hremove : s.remove cwd name with
    | error f =>
      refine (ih s).imp_right (And.imp_right ?_)
      rintro ⟨name', hmem, h⟩
      exact ⟨name', mem_cons_of_mem _ hmem, h⟩
    | ok s' =>
      obtain ⟨r, hr, rfl⟩ := unlinks_of_remove hremove
      have hdrop := entry?_drop s hr.ne_root p
      obtain h | ⟨hnone, name', hmem, h⟩ := ih (s.drop r)
      · by_cases hp : p = r
        · rw [if_pos hp] at hdrop
          exact .inr ⟨h.trans hdrop, name, mem_cons_self, hp ▸ hr⟩
        · rw [if_neg hp] at hdrop
          exact .inl (h.trans hdrop)
      · exact .inr ⟨hnone, name', mem_cons_of_mem _ hmem, hr.of_drop h⟩

/-- Whether what names lead to are files, not links, so that no name needs what another one has removed. -/
def OnlyFiles (s : Store) (cwd : Place) (names : List Text) : Prop :=
  ∀ name ∈ names, ∀ p target, s.Unlinks cwd name p → s.entry? p ≠ some (.link target)

theorem Unlinks.isFile (h : s.Unlinks cwd name p) (hlink : ∀ target, s.entry? p ≠ some (.link target)) :
    ∃ text age, s.entry? p = some (.file text age) := by
  cases hentry : s.entry? p with
  | none => exact absurd h.isSome (by simp [hentry])
  | some e =>
    cases e with
    | file text age => exact ⟨text, age, rfl⟩
    | directory age => exact absurd ⟨age, hentry⟩ h.no_directory
    | link target => exact absurd hentry (hlink target)

theorem onlyFiles_of_no_link (h : ∀ e ∈ s.entries, ∀ target, e.2 ≠ .link target) : s.OnlyFiles cwd names := by
  intro name _ p target hp hlink
  rw [ entry?, if_neg (by simpa using hp.ne_root)] at hlink
  exact h _ (Fields.mem_of_get?_eq_some hlink) target rfl

theorem removeAll_of_unlinks (hfiles : s.OnlyFiles cwd names) (hname : name ∈ names) (h : s.Unlinks cwd name p) :
    Store.entry? (s.removeAll cwd names) p = none := by
  induction names generalizing s with
  | nil => cases hname
  | cons first names ih =>
    rw [removeAll, foldl_cons]
    cases hremove : s.remove cwd first with
    | error f =>
      obtain rfl | hname := mem_cons.mp hname
      · rw [remove_of_unlinks h] at hremove
        cases hremove
      · exact ih (fun name hname => hfiles name (mem_cons_of_mem _ hname)) hname h
    | ok s' =>
      obtain ⟨r, hr, rfl⟩ := unlinks_of_remove hremove
      have hdrop := entry?_drop s hr.ne_root
      by_cases hp : p = r
      · obtain hsame | ⟨hnone, -⟩ := entry?_removeAll (s.drop r) cwd names p
        · exact hsame.trans ((hdrop p).trans (if_pos hp))
        · exact hnone
      · obtain rfl | hname := mem_cons.mp hname
        · exact absurd (h.unique hr) hp
        · obtain ⟨text, age, hfile⟩ := hr.isFile fun target => hfiles first mem_cons_self r target hr
          have hfiles : (s.drop r).OnlyFiles cwd names := by
            intro name hname q target hq hlink
            rw [hdrop] at hlink
            split at hlink
            · cases hlink
            · exact hfiles name (mem_cons_of_mem _ hname) q target (hr.of_drop hq) hlink
          exact ih hfiles hname (h.drop hp hfile)

end Store

theorem Session.runIn_forM_removeQuietly (w : Workspace) (names : List Text) :
    runIn w (names.forM removeQuietly) = (.ok (), { w with store := w.store.removeAll w.cwd names }) := by
  induction names generalizing w with
  | nil => rfl
  | cons name names ih =>
    have hremove : runIn w (removeQuietly name)
        = (.ok (), { w with store := (w.store.remove w.cwd name).toOption.getD w.store }) := by
      rw [removeQuietly, runIn_bind, runIn_attempt, removeFile, runIn_bind_of_ok (runIn_get w)]
      cases hremove : w.store.remove w.cwd name <;> rfl
    exact (runIn_bind_of_ok hremove _).trans (ih _)

theorem Session.runIn_checkedExists_eq_ok {w w' : Workspace} {name : Text} {b : Bool}
    (h : runIn w (checkedExists name) = (.ok b, w')) : w' = w ∧ b = w.store.has w.cwd name := by
  rw [checkedExists, runIn_bind_of_ok (runIn_get w)] at h
  split at h
  · cases h
  · cases h
    exact ⟨rfl, rfl⟩

/-! ## Names in a store -/

/-- Whether every place is made of steps that can be taken. -/
def Store.IsProper (s : Store) : Prop := ∀ e ∈ s.entries, ∀ step ∈ e.1, IsStep step ∧ step ≠ ".."

theorem Store.IsProper.of_mem_namesIn {s : Store} (h : s.IsProper) {cwd : Place} {directory n : Text} {only : Bool}
    (hn : n ∈ s.namesIn cwd directory only) : IsStep n ∧ n ≠ ".." := by
  rw [namesIn] at hn
  split at hn
  · rename_i q age hlocate
    have hn := (mem_filter.mp hn).1
    rw [list, Text.sort, mem_mergeSort, mem_filterMap] at hn
    obtain ⟨⟨place, e⟩, he, hlast⟩ := hn
    dsimp only at hlast
    split at hlast
    · exact h _ he n (mem_of_getLast? hlast)
    · cases hlast
  · cases hn

/-- What has been removed in a run. -/
def Workspace.Lost (w w' : Workspace) (p : Place) : Prop :=
  ( w.store.entry? p).isSome = true ∧ w'.store.entry? p = none

theorem Workspace.lost_iff {w w' : Workspace} {names : List Text} (hstore : w'.store = w.store.removeAll w.cwd names)
    (hfiles : w.store.OnlyFiles w.cwd names) (p : Place) :
    w.Lost w' p ↔ ∃ name ∈ names, w.store.Unlinks w.cwd name p := by
  rw [Lost, hstore]
  constructor
  · rintro ⟨hsome, hnone⟩
    obtain hsame | ⟨-, hgone⟩ := Store.entry?_removeAll w.store w.cwd names p
    · rw [← hsame, hnone] at hsome
      cases hsome
    · exact hgone
  · rintro ⟨name, hname, h⟩
    exact ⟨h.isSome, Store.removeAll_of_unlinks hfiles hname h⟩

/-! ## Batches of earlier runs -/

namespace Output

variable {w w' : Workspace} {path n : Text} {p : Place}

/-- The output file, if it is not recent. -/
def oldBase (w : Workspace) (path : Text) : List Text :=
  match w.store.age? w.cwd path with
  | some age => if age.lt recentAge then [] else [path]
  | none => []

/-- A name in the directory of an output file that is taken for one of its batches. -/
structure IsTaken (w : Workspace) (path n : Text) : Prop where
  listed : n ∈ w.store.namesIn w.cwd (parent path) false
  accepted : Wildcard.accepts (batchPattern path) n = true
  no_summary : Text.holds n "AGGREGATED_SUMMARY" = false
  stale : isStale w.pid n (w.store.age? w.cwd (child (parent path) n)) = true

/-- The names that a clean-up removes. -/
def outdated (w : Workspace) (path : Text) : List Text :=
  oldBase w path ++ (w.store.globIn w.cwd (parent path) (batchPattern path)).filter fun name =>
    !Text.holds (last name) "AGGREGATED_SUMMARY" && isStale w.pid (last name) (w.store.age? w.cwd name)

theorem mem_outdated_iff (hproper : w.store.IsProper) {name : Text} :
    name ∈ outdated w path ↔ name ∈ oldBase w path ∨ ∃ n, IsTaken w path n ∧ name = child (parent path) n := by
  rw [outdated, mem_append]
  refine or_congr_right ?_
  simp only [Store.globIn, mem_filter, mem_map, Bool.and_eq_true, Bool.not_eq_true']
  constructor
  · rintro ⟨⟨n, ⟨hlisted, haccepted⟩, rfl⟩, hsummary, hstale⟩
    have hlast := @last_child_parent n path (hproper.of_mem_namesIn hlisted).1
    rw [hlast] at hsummary hstale
    exact ⟨n, ⟨hlisted, haccepted, hsummary, hstale⟩, rfl⟩
  · rintro ⟨n, hn, rfl⟩
    have hlast := @last_child_parent n path (hproper.of_mem_namesIn hn.listed).1
    rw [hlast]
    exact ⟨⟨n, ⟨hn.listed, hn.accepted⟩, rfl⟩, hn.no_summary, hn.stale⟩

theorem base_of_staleBase {base : List Text} (hrun : runIn w (staleBase path) = (.ok base, w')) :
    w' = w ∧ base = oldBase w path := by
  obtain ⟨there, w₁, hexists, hrun⟩ := runIn_bind_eq_ok.mp hrun
  obtain ⟨rfl, rfl⟩ := runIn_checkedExists_eq_ok hexists
  split at hrun
  · rename_i hnone
    cases hrun
    refine ⟨rfl, ?_⟩
    rw [Bool.not_eq_true', Store.has, Option.isSome_eq_false_iff, Option.isNone_iff_eq_none] at hnone
    rw [oldBase, Store.age?, hnone]
  · rw [runIn_bind_of_ok (runIn_get w₁)] at hrun
    cases hrun
    exact ⟨rfl, rfl⟩

theorem store_of_cleanBatches (hthere : w.store.has w.cwd (parent path) = true)
    (hrun : runIn w (cleanBatches path) = (.ok (), w')) : w'.store = w.store.removeAll w.cwd (outdated w path) := by
  obtain ⟨there, w₁, hexists, hrun⟩ := runIn_bind_eq_ok.mp hrun
  obtain ⟨rfl, rfl⟩ := runIn_checkedExists_eq_ok hexists
  rw [hthere] at hrun
  obtain ⟨base, w₂, hbase, hrun⟩ := runIn_bind_eq_ok.mp hrun
  obtain ⟨rfl, rfl⟩ := base_of_staleBase hbase
  obtain ⟨batches, w₃, hbatches, hrun⟩ := runIn_bind_eq_ok.mp hrun
  obtain ⟨found, w₄, hfound, hbatches⟩ := runIn_bind_eq_ok.mp hbatches
  rw [globIn, runIn_bind_of_ok (runIn_get _)] at hfound
  split at hfound
  · cases hfound
  · cases hfound
    rw [runIn_bind_of_ok (runIn_get _)] at hbatches
    cases hbatches
    rw [runIn_forM_removeQuietly] at hrun
    cases hrun
    rfl

theorem Store.Unlinks.last_step {s : Store} {cwd : Place} (h : s.Unlinks cwd (child (parent path) n) p)
    (hn : IsStep n) (hup : n ≠ "..") : p.getLast? = some n := by
  obtain ⟨e, he⟩ := h.leads
  obtain ⟨-, -, hwalks, -⟩ := Store.of_locate_eq_ok he
  rw [child_parent hn, walkSteps_ofSteps_root (root_cases path) fun _ => isStep_of_mem_neighbour hn,
    if_neg (concat_ne_nil _ _)] at hwalks
  exact (hwalks.last_step rfl hn.ne_stay hup).2 rfl

/-- The names that a run gives to further files of an output file. -/
def IsBatchName (path n : Text) : Prop :=
  ∃ pid number, n = stem path ++ "_pid" ++ natText pid ++ "_batch" ++ natText number ++ suffix path

/-- A file of an output file: itself, or by its name one of its batches. -/
def IsOwn (w : Workspace) (path : Text) (p : Place) : Prop :=
  w.store.Unlinks w.cwd path p ∨ ∃ n, p.getLast? = some n ∧ IsBatchName path n

/-- What is taken for a batch if the name of the output file holds no wildcard. -/
theorem accepts_batchPattern_iff (hplain : Wildcard.isWild (stem path) = false) (n : Text) :
    Wildcard.accepts (batchPattern path) n = true ↔ ∃ a b, n = stem path ++ a ++ "batch" ++ b ++ ".txt" := by
  have hbatch (ending : Text) : Wildcard.accepts "batch*.txt" ending = true ↔ ∃ b, ending = "batch" ++ b ++ ".txt" :=
    @Wildcard.accepts_star "batch" ".txt" ending (by decide) (by decide)
  have hstar : batchPattern path = stem path ++ .char '*' :: "batch*.txt" := rfl
  rw [hstar, Wildcard.accepts_star_append hplain]
  simp only [hbatch]
  constructor
  · rintro ⟨a, _, rfl, b, rfl⟩
    exact ⟨a, b, by simp only [append_assoc]⟩
  · rintro ⟨a, b, rfl⟩
    exact ⟨a, _, by simp only [append_assoc], b, rfl⟩

/-- **What a clean-up removes**: the output file, if it is not recent, and the files beside it whose names are taken
for batches. It removes only files of its own if and only if each of these names is one that a run gives to a further
file. But every name is taken that starts with the stem, holds the word for a batch and ends as a text file does, be
it of the user or of another report. -/
theorem removes_only_own_iff (hproper : w.store.IsProper) (hthere : w.store.has w.cwd (parent path) = true)
    (hfiles : w.store.OnlyFiles w.cwd (outdated w path)) (hrun : runIn w (cleanBatches path) = (.ok (), w')) :
    (∀ p, w.Lost w' p ↔ (∃ name ∈ oldBase w path, w.store.Unlinks w.cwd name p)
        ∨ ∃ n, IsTaken w path n ∧ w.store.Unlinks w.cwd (child (parent path) n) p)
      ∧ ((∀ p, w.Lost w' p → IsOwn w path p) ↔ ∀ n p, IsTaken w path n →
          w.store.Unlinks w.cwd (child (parent path) n) p → IsBatchName path n ∨ w.store.Unlinks w.cwd path p)
      ∧ (Wildcard.isWild (stem path) = false → ∀ n, Wildcard.accepts (batchPattern path) n = true
          ↔ ∃ a b, n = stem path ++ a ++ "batch" ++ b ++ ".txt") := by
  have hlost (p : Place) : w.Lost w' p ↔ (∃ name ∈ oldBase w path, w.store.Unlinks w.cwd name p)
      ∨ ∃ n, IsTaken w path n ∧ w.store.Unlinks w.cwd (child (parent path) n) p := by
    rw [Workspace.lost_iff (store_of_cleanBatches hthere hrun) hfiles]
    simp only [mem_outdated_iff hproper, or_and_right, exists_or]
    refine or_congr_right ⟨?_, ?_⟩
    · rintro ⟨-, ⟨n, hn, rfl⟩, h⟩
      exact ⟨n, hn, h⟩
    · rintro ⟨n, hn, h⟩
      exact ⟨_, ⟨n, hn, rfl⟩, h⟩
  refine ⟨hlost, ⟨fun hown n p hn h => ?_, fun hown p hp => ?_⟩, accepts_batchPattern_iff⟩
  · obtain hbase | ⟨m, hm, hbatch⟩ := hown p ((hlost p).mpr (.inr ⟨n, hn, h⟩))
    · exact .inr hbase
    · obtain ⟨hstep, hup⟩ := hproper.of_mem_namesIn hn.listed
      rw [Store.Unlinks.last_step h hstep hup] at hm
      exact .inl (Option.some.inj hm ▸ hbatch)
  · obtain ⟨name, hname, h⟩ | ⟨n, hn, h⟩ := (hlost p).mp hp
    · left
      rw [oldBase] at hname
      split at hname
      · split at hname
        · cases hname
        · exact mem_singleton.mp hname ▸ h
      · cases hname
    · obtain ⟨hstep, hup⟩ := hproper.of_mem_namesIn hn.listed
      refine (hown n p hn h).symm.imp id fun hbatch => ⟨n, Store.Unlinks.last_step h hstep hup, hbatch⟩

/-- A file of the user beside a results file. -/
def oneNote : Workspace where
  store := ⟨[([Text.ofString "results_batch_notes.txt"], .file "mine" (.ofInt 60))]⟩
  cwd := []

theorem lost_oneNote : ∃ w', runIn oneNote (cleanBatches "results.txt") = (.ok (), w')
    ∧ oneNote.Lost w' ["results_batch_notes.txt"] := by
  have hrun : (runIn oneNote (cleanBatches "results.txt")).1.toOption = some ()
      ∧ (Store.entry? (runIn oneNote (cleanBatches "results.txt")).2.store ["results_batch_notes.txt"]).isNone = true := by
    decide +kernel
  obtain ⟨w', h⟩ := runIn_eq_ok_iff.mpr hrun.1
  exact ⟨w', h, rfl, by simpa [h] using hrun.2⟩

/-- The notes of the user go. -/
theorem not_always_own : ¬ ∀ (w w' : Workspace) (path : Text), runIn w (cleanBatches path) = (.ok (), w') →
    ∀ p, w.Lost w' p → IsOwn w path p := by
  intro hall
  obtain ⟨w', hrun, hlost⟩ := lost_oneNote
  obtain hbase | ⟨n, hn, pid, number, hname⟩ := hall oneNote w' "results.txt" hrun _ hlost
  · obtain ⟨e, he⟩ := hbase.leads
    have hnothing : oneNote.store.locate oneNote.cwd false "results.txt" = .ok ([Text.ofString "results.txt"], none) := rfl
    rw [hnothing] at he
    cases he
  · obtain rfl := Option.some.inj hn
    have hstem : stem (Text.ofString "results.txt") = "results" := rfl
    rw [hstem] at hname
    simp [Text.ofString] at hname

theorem removes_only_own_iff_oneNote : oneNote.store.IsProper ∧ oneNote.store.has oneNote.cwd (parent "results.txt") = true
    ∧ oneNote.store.OnlyFiles oneNote.cwd (outdated oneNote "results.txt")
    ∧ ∃ w', runIn oneNote (cleanBatches "results.txt") = (.ok (), w')
      ∧ ((∀ p, oneNote.Lost w' p → IsOwn oneNote "results.txt" p) ↔ ∀ n p, IsTaken oneNote "results.txt" n →
          oneNote.store.Unlinks oneNote.cwd (child (parent "results.txt") n) p →
          IsBatchName "results.txt" n ∨ oneNote.store.Unlinks oneNote.cwd "results.txt" p) := by
  have hproper : oneNote.store.IsProper := by
    intro e he step hstep
    rw [mem_singleton.mp he] at hstep
    rw [mem_singleton.mp hstep]
    exact ⟨⟨by decide, by decide, by decide⟩, by decide⟩
  have hfiles : oneNote.store.OnlyFiles oneNote.cwd (outdated oneNote "results.txt") :=
    Store.onlyFiles_of_no_link (by simp [oneNote])
  obtain ⟨w', hrun, -⟩ := lost_oneNote
  exact ⟨hproper, rfl, hfiles, w', hrun, (removes_only_own_iff hproper rfl hfiles hrun).2.1⟩

end Output

end ViewLint
