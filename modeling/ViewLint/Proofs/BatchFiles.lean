import ViewLint.Proofs.BatchSums
import ViewLint.Proofs.Listings

/-!
# Batches that add up

Each batch of a run leaves a results file. They are found in its directory by their names, and the counts of all of
them are the sums over their runs, provided that the summary file can be written.

* `Aggregate.members`: the names in a directory that belong to a batch.
* **`Aggregate.runIn_related`**: they are the files that are added up, each of them once.
* **`Aggregate.run_iff_isSumOf`**: the counts of a batch are the sums over its files.
-/

namespace ViewLint

open List Text Session FileName Store BatchCounts Report

/-- The first occurrence of a word stands behind a text without it. -/
theorem Text.cut?_append_of_not_infix {d : CodePoint} {needle front : Text} (hd : d ∉ needle)
    (hfront : ¬ d :: needle <:+: front) (rest : Text) :
    cut? (d :: needle) (front ++ (d :: needle ++ rest)) = some (front, rest) := by
  induction front with
  | nil =>
    have hstart : (d :: needle).isPrefixOf (d :: (needle ++ rest)) = true :=
      isPrefixOf_iff_prefix.mpr (prefix_append (d :: needle) rest)
    have hdrop : (d :: (needle ++ rest)).drop (d :: needle).length = rest := by
      rw [← cons_append, drop_left]
    rw [nil_append, cons_append, cut?, if_pos hstart, hdrop]
  | cons c front ih =>
    rw [cons_append, cut?, if_neg, ih fun h => hfront (h.trans (suffix_cons _ _).isInfix)]
    · rfl
    · rw [ isPrefixOf_iff_prefix, cons_prefix_cons]
      rintro ⟨rfl, h⟩
      have hneedle := (prefix_append_stop hd).mp h
      exact hfront (cons_prefix_cons.mpr ⟨rfl, hneedle⟩).isInfix

/-- A store in which no step of a place holds a slash. -/
def Store.HasPlainNames (s : Store) : Prop := ∀ e ∈ s.entries, ∀ step ∈ e.1, .char '/' ∉ step

theorem Store.HasPlainNames.of_mem_namesIn {s : Store} (h : s.HasPlainNames) {cwd : Place} {p n : Text}
    (hn : n ∈ s.namesIn cwd (parent p) false) : .char '/' ∉ n := by
  obtain ⟨q, _, -, hlist⟩ := exists_of_mem_namesIn hn
  rw [hlist, list, sort, mem_mergeSort, mem_filterMap] at hn
  obtain ⟨⟨place, e⟩, he, hlast⟩ := hn
  dsimp only at hlast
  split at hlast
  · exact h _ he n (mem_of_getLast? hlast)
  · cases hlast

theorem FileName.isStep_of_ending {front : Text} (h : .char '/' ∉ front ++ ofString ".txt") :
    IsStep (front ++ ofString ".txt") ∧ front ++ ofString ".txt" ≠ ".." := by
  have hlength : 4 ≤ (front ++ ofString ".txt").length := by simp [ofString]
  refine ⟨⟨h, ?_, ?_⟩, ?_⟩ <;> intro heq <;> rw [heq] at hlength <;> exact absurd hlength (by decide)

namespace Aggregate

variable {files : List Text} {total : BatchCounts} {batches : List (Text × BatchCounts)}
  {results : Text → RunResults} {w w' : Workspace} {p base name : Text}

/-! ## The files of a batch -/

/-- Whether a name is that of a batch of a results file, and not that of a summary. -/
def isMember (base name : Text) : Bool :=
  startsWith name (base ++ "_pid") && endsWith (name.drop (base ++ ofString "_pid").length) ".txt" &&
    !holds name "AGGREGATED_SUMMARY"

/-- The names in a directory that belong to a batch: that of the results file, if it is there, and those of its
batches. -/
def members (w : Workspace) (directory base : Text) : List Text :=
  let names := w.store.namesIn w.cwd directory false
  (if names.contains (base ++ ".txt") then [base ++ ".txt"] else []) ++ names.filter (isMember base)

/-- A batch of a results file. -/
structure IsBatchOf (p base : Text) : Prop where
  name : ∃ inner, last p = base ++ "_pid" ++ inner ++ ".txt"
  batch : holds (last p) "_batch" = true
  first : holds base "_pid" = false
  plain : Wildcard.isWild base = false

/-- Several results files that belong to a batch, each with the results of a run. -/
structure HoldsResults (w : Workspace) (p base : Text) (results : Text → RunResults) : Prop where
  several : 2 ≤ (members w (parent p) base).length
  text : ∀ n ∈ members w (parent p) base,
    w.store.content? w.cwd (child (parent p) n) = some (Report.ofLines (results n).lines)
  count : ∀ n ∈ members w (parent p) base, (results n).totals.IsCount

theorem isMember_iff :
    isMember base name = true ↔ (∃ inner, name = base ++ ofString "_pid" ++ inner ++ ofString ".txt") ∧
        holds name "AGGREGATED_SUMMARY" = false := by
  rw [isMember, Bool.and_eq_true, Bool.and_eq_true, Bool.not_eq_true', startsWith, endsWith,
    isPrefixOf_iff_prefix, isSuffixOf_iff_suffix]
  refine and_congr_left fun _ => ?_
  constructor
  · rintro ⟨⟨rest, rfl⟩, h⟩
    rw [drop_left] at h
    obtain ⟨inner, rfl⟩ := h
    exact ⟨inner, (append_assoc _ _ _).symm⟩
  · rintro ⟨inner, rfl⟩
    rw [append_assoc (base ++ _), drop_left]
    exact ⟨prefix_append _ _, suffix_append _ _⟩

theorem mem_members {directory n : Text} (h : n ∈ members w directory base) :
    n ∈ w.store.namesIn w.cwd directory false ∧ (n = base ++ ".txt" ∨ isMember base n = true) := by
  obtain h | h := mem_append.mp h
  · split at h
    · rename_i hbase
      obtain rfl := mem_singleton.mp h
      exact ⟨contains_iff_mem.mp hbase, .inl rfl⟩
    · cases h
  · exact ⟨(mem_filter.mp h).1, .inr (mem_filter.mp h).2⟩

/-- A name that belongs to a batch is a single step. -/
theorem isStep_of_mem_members (hnames : w.store.HasPlainNames) {n : Text}
    (hn : n ∈ members w (parent p) base) : IsStep n ∧ n ≠ ".." := by
  obtain ⟨hlisted, hform⟩ := mem_members hn
  have hslash := hnames.of_mem_namesIn hlisted
  obtain rfl | hform := hform
  · exact isStep_of_ending hslash
  · obtain ⟨⟨inner, rfl⟩, -⟩ := isMember_iff.mp hform
    exact isStep_of_ending hslash

namespace IsBatchOf

theorem isBatch (h : IsBatchOf p base) : isBatch p = true := by
  obtain ⟨inner, hname⟩ := h.name
  rw [Aggregate.isBatch, Bool.and_eq_true]
  refine ⟨holds_iff_isInfix.mpr ⟨base, inner ++ ".txt", ?_⟩, h.batch⟩
  rw [hname]
  simp only [append_assoc]

theorem baseName (h : IsBatchOf p base) : baseName p = base := by
  obtain ⟨inner, hname⟩ := h.name
  have hstem : stem p = base ++ (ofString "_pid" ++ inner) := by
    have hcut : rcut? "." (last p) = some (base ++ (ofString "_pid" ++ inner), ofString "txt") := by
      rw [hname, append_assoc base]
      exact rcut?_stop (.char '.') _ (by decide)
    have hne : ¬ (base ++ (ofString "_pid" ++ inner) == ofString "" || ofString "txt" == "") = true := by
      rw [Bool.or_eq_true, not_or, beq_iff_eq]
      exact ⟨append_ne_nil_of_right_ne_nil _ (cons_ne_nil _ _), by decide⟩
    rw [stem, stemAndSuffix, hcut]
    simp only [if_neg hne]
  have hfirst : ¬ ofString "_pid" <:+: base := by
    rw [← holds_iff_isInfix, h.first]
    decide
  have hcut : cut? "_pid" (base ++ (ofString "_pid" ++ inner)) = some (base, inner) :=
    cut?_append_of_not_infix (by decide) hfirst inner
  rw [Aggregate.baseName, hstem, before, hcut]
  rfl

theorem no_slash (h : IsBatchOf p base) : .char '/' ∉ base := by
  obtain ⟨inner, hname⟩ := h.name
  have hlast : (steps p).getLast? = some (last p) := by
    cases hlast : (steps p).getLast? with
    | none =>
      rw [last, hlast] at hname
      exact absurd (congrArg length hname.symm) (by simp [ofString])
    | some step => rw [last, hlast, Option.getD_some]
  have hstep := (of_mem_steps (mem_of_getLast? hlast)).1
  rw [hname] at hstep
  exact fun hmem => hstep (by simp only [mem_append]; exact .inl (.inl (.inl hmem)))

theorem accepts_iff (h : IsBatchOf p base) : Wildcard.accepts (base ++ "_pid*.txt") name = true ↔
      ∃ inner, name = base ++ ofString "_pid" ++ inner ++ ofString ".txt" := by
  have hfront : Wildcard.isWild (base ++ ofString "_pid") = false := by
    rw [Wildcard.isWild, any_append, Bool.or_eq_false_iff]
    exact ⟨h.plain, by decide⟩
  have hpattern : base ++ ofString "_pid*.txt" = base ++ ofString "_pid" ++ .char '*' :: ofString ".txt" :=
    (append_assoc base (ofString "_pid") (.char '*' :: ofString ".txt")).symm
  rw [hpattern, Wildcard.accepts_star hfront (by decide)]

theorem holds_stars (h : IsBatchOf p base) : holds (base ++ "_pid*.txt") "**" = false := by
  rw [Bool.eq_false_iff, ne_eq, holds_iff_isInfix]
  intro hstars
  have hbase : base.count (.char '*') = 0 := by
    rw [count_eq_zero]
    intro hmem
    exact absurd (any_eq_true.mpr ⟨_, hmem, by decide⟩) (Bool.eq_false_iff.mp h.plain)
  have hle := hstars.sublist.count_le (.char '*')
  rw [count_append, hbase] at hle
  exact absurd hle (by decide)

end IsBatchOf

/-- The results file of a batch is found exactly if it is listed. -/
theorem runIn_checkedExists_base (hnames : w.store.HasPlainNames) (hp : IsBatchOf p base)
    (h : HoldsResults w p base results) :
    runIn w (checkedExists (child (parent p) (base ++ ".txt"))) =
      (.ok ((w.store.namesIn w.cwd (parent p) false).contains (base ++ ".txt")), w) := by
  cases hlisted : (w.store.namesIn w.cwd (parent p) false).contains (base ++ ".txt") with
  | true =>
    refine runIn_checkedExists_of_content? (h.text _ ?_)
    simp only [members, hlisted, if_true]
    exact mem_append_left _ (mem_singleton.mpr rfl)
  | false =>
    -- The files are batches then, and their names are longer.
    obtain ⟨n, rest, hmembers⟩ := exists_cons_of_length_pos (Nat.lt_of_lt_of_le (by decide) h.several)
    have hn : n ∈ members w (parent p) base := hmembers ▸ mem_cons_self
    obtain ⟨hlistedn, hform⟩ := mem_members hn
    have hunlisted : base ++ ofString ".txt" ∉ w.store.namesIn w.cwd (parent p) false := by
      intro hmem
      rw [contains_iff_mem.mpr hmem] at hlisted
      cases hlisted
    have hmember : isMember base n = true := by
      refine hform.resolve_left ?_
      rintro rfl
      exact hunlisted hlistedn
    have hsize : encodedSize (base ++ ofString ".txt") ≤ encodedSize n := by
      obtain ⟨⟨inner, rfl⟩, -⟩ := isMember_iff.mp hmember
      simp only [encodedSize_append]
      omega
    have hbase : FileName.IsStep (base ++ ofString ".txt") ∧ base ++ ofString ".txt" ≠ ".." := by
      refine isStep_of_ending ?_
      rw [mem_append, not_or]
      exact ⟨hp.no_slash, by decide⟩
    obtain ⟨-, q, age, hlocate⟩ := content?_eq_some_iff.mp (h.text n hn)
    obtain ⟨hstep, hup⟩ := isStep_of_mem_members hnames hn
    obtain ⟨r, hnone⟩ := locate_unlisted hstep hup hlocate hlistedn hbase.1 hbase.2 hsize hunlisted
    rw [checkedExists, runIn_bind_of_ok (runIn_get w)]
    simp only [hnone, Store.has, Store.find?]
    rfl

theorem runIn_related (hnames : w.store.HasPlainNames) (hp : IsBatchOf p base) (h : HoldsResults w p base results) :
    ∃ files, runIn w (related p) = (.ok files, w) ∧
      files.Perm ((members w (parent p) base).map (child (parent p))) := by
  have hkept : (w.store.globIn w.cwd (parent p) (base ++ "_pid*.txt")).filter
      (fun name => !holds (last name) "AGGREGATED_SUMMARY") =
      ((w.store.namesIn w.cwd (parent p) false).filter (isMember base)).map (child (parent p)) := by
    rw [Store.globIn, List.filter_map, List.filter_filter]
    refine congrArg (map _) (filter_congr fun n hn => ?_)
    rw [Bool.eq_iff_iff, Bool.and_eq_true, Function.comp_apply, hp.accepts_iff, isMember_iff, Bool.not_eq_true',
      and_comm]
    refine and_congr_right ?_
    rintro ⟨inner, rfl⟩
    rw [last_child_parent (isStep_of_ending (hnames.of_mem_namesIn hn)).1]
  rw [related]
  simp only [hp.baseName]
  rw [runIn_bind_of_ok (runIn_checkedExists_base hnames hp h),
    runIn_bind_of_ok (runIn_globIn w hp.holds_stars), runIn_pure, hkept]
  refine ⟨_, rfl, (mergeSort_perm _ _).trans (Perm.of_eq ?_)⟩
  rw [members, map_append]
  congr 1
  split <;> rfl

/-! ## The counts of a batch -/

theorem runIn_countsOf {file : Text} {r : RunResults} (hr : r.totals.IsCount)
    (hfile : w.store.content? w.cwd file = some (ofLines r.lines)) {found : Option (Text × BatchCounts)} :
    runIn w (countsOf file) = (.ok found, w') ↔ found = some (last file, r.counts) ∧ r.counts.IsWritten ∧ w' = w := by
  have hrun : runIn w (countsOf file) = runIn w (lift (read (normalizeBreaks (ofLines r.lines))) >>= fun counts =>
        pure (counts.map (last file, ·))) := by
    rw [countsOf, runIn_bind_of_ok (runIn_attempt_readFile_of_content? hfile)]
  rw [hrun, runIn_bind_eq_ok]
  constructor
  · rintro ⟨counts, v, hlift, hfound⟩
    obtain ⟨hread, rfl⟩ := runIn_lift_eq_ok.mp hlift
    obtain ⟨rfl, hwritten⟩ := (RunResults.read_eq_ok_iff hr).mp hread
    cases hfound
    exact ⟨rfl, hwritten, rfl⟩
  · rintro ⟨rfl, hwritten, rfl⟩
    have hread := (RunResults.read_eq_ok_iff hr).mpr ⟨rfl, hwritten⟩
    exact ⟨some r.counts, w', runIn_lift_eq_ok.mpr ⟨hread, rfl⟩, runIn_pure _ _⟩

/-- The counts of several results files are read one after another. -/
theorem runIn_filterMapM_countsOf (h : ∀ file ∈ files, (results file).totals.IsCount ∧
      w.store.content? w.cwd file = some (ofLines (results file).lines))
    :
    runIn w (files.filterMapM countsOf) = (.ok batches, w') ↔
      batches = files.map (fun file => (last file, (results file).counts)) ∧
        (∀ file ∈ files, (results file).counts.IsWritten) ∧ w' = w := by
  induction files generalizing batches w' with
  | nil =>
    rw [filterMapM_nil, runIn_pure, Prod.mk.injEq, Except.ok.injEq]
    simp [eq_comm]
  | cons file files ih =>
    obtain ⟨⟨hcount, htext⟩, hfiles⟩ := forall_mem_cons.mp h
    rw [filterMapM_cons, runIn_bind_eq_ok]
    constructor
    · rintro ⟨found, v, hfound, hrest⟩
      obtain ⟨rfl, hwritten, rfl⟩ := (runIn_countsOf hcount htext).mp hfound
      obtain ⟨others, v, hothers, hbatches⟩ := runIn_bind_eq_ok.mp hrest
      obtain ⟨rfl, hall, rfl⟩ := (ih hfiles).mp hothers
      cases hbatches
      exact ⟨rfl, forall_mem_cons.mpr ⟨hwritten, hall⟩, rfl⟩
    · rintro ⟨rfl, hwritten, rfl⟩
      obtain ⟨hfirst, hall⟩ := forall_mem_cons.mp hwritten
      refine ⟨_, w', (runIn_countsOf hcount htext).mpr ⟨rfl, hfirst, rfl⟩, ?_⟩
      exact runIn_bind_eq_ok.mpr ⟨_, w', (ih hfiles).mpr ⟨rfl, hall, rfl⟩, rfl⟩

theorem exists_runIn_writeSummary_iff : (∃ w', runIn w (writeSummary p batches) = (.ok (some total), w')) ↔
      total = BatchCounts.sum (batches.map (·.2)) ∧ ∃ v, runIn w (writeUntil (summaryName p)
        (summaryLines (w.date ++ " " ++ w.time) batches)) = (.ok (), v) := by
  constructor
  · rintro ⟨w', h⟩
    obtain ⟨htotal, v, hwrite, -⟩ := runIn_writeSummary h
    exact ⟨htotal, v, hwrite⟩
  · rintro ⟨rfl, v, hwrite⟩
    have hstamp : runIn w stamp = (.ok (w.date ++ " " ++ w.time), w) := rfl
    have hattempt : runIn w (attempt (writeUntil (summaryName p)
        (summaryLines (w.date ++ " " ++ w.time) batches))) = (.ok (.ok ()), v) := by
      rw [runIn_attempt, hwrite]
    rw [writeSummary, runIn_bind_of_ok hstamp, runIn_bind_of_ok hattempt]
    exact ⟨_, rfl⟩

theorem exists_runIn_run_iff (hp : isBatch p = true)
    (hfiles : runIn w (related p) = (.ok files, w)) (hseveral : 2 ≤ files.length)
    (h : ∀ file ∈ files, (results file).totals.IsCount ∧
      w.store.content? w.cwd file = some (ofLines (results file).lines)) :
    (∃ w', runIn w (run p) = (.ok (some total), w')) ↔ (∀ file ∈ files, (results file).counts.IsWritten) ∧
        ∃ w', runIn w (writeSummary p (files.map fun file => (last file, (results file).counts))) =
          (.ok (some total), w') := by
  constructor
  · rintro ⟨w', hrun⟩
    obtain ⟨files', batches, v, v', hfiles', -, hbatches, -, hsummary⟩ := runIn_run_of_isBatch hp hrun
    cases hfiles.symm.trans hfiles'
    obtain ⟨rfl, hwritten, rfl⟩ := (runIn_filterMapM_countsOf h).mp hbatches
    exact ⟨hwritten, w', hsummary⟩
  · rintro ⟨hwritten, w', hsummary⟩
    have hbatches := (runIn_filterMapM_countsOf h).mpr ⟨rfl, hwritten, rfl⟩
    refine ⟨w', ?_⟩
    rw [run, hp]
    simp only [Bool.not_true, Bool.false_eq_true, if_false]
    rw [runIn_bind_of_ok hfiles, if_neg (Nat.not_le.mpr hseveral), runIn_bind_of_ok hbatches, if_neg]
    · exact hsummary
    · rw [List.isEmpty_iff, List.map_eq_nil_iff]
      rintro rfl
      exact absurd hseveral (by decide)

theorem not_isWritable_of_long (hp : IsBatchOf p base)
    (hlong : stepLimit < encodedSize (base ++ ofString "_AGGREGATED_SUMMARY.txt")) :
    ¬ w.store.IsWritable w.cwd (summaryName p) := by
  rintro ⟨-, q, e, hlocate, -⟩
  have hname : summaryName p = child (parent p) (base ++ ofString "_AGGREGATED_SUMMARY" ++ ofString ".txt") := by
    have hpid : holds (last p) "_pid" = true := (Bool.and_eq_true_iff.mp hp.isBatch).1
    rw [summaryName, hpid, hp.baseName, append_assoc]
    rfl
  have hstep : IsStep (base ++ ofString "_AGGREGATED_SUMMARY" ++ ofString ".txt") ∧
      base ++ ofString "_AGGREGATED_SUMMARY" ++ ofString ".txt" ≠ ".." := by
    refine isStep_of_ending ?_
    rw [append_assoc, mem_append, not_or]
    exact ⟨hp.no_slash, by decide⟩
  rw [hname, child_parent hstep.1] at hlocate
  obtain ⟨-, -, hwalks, -⟩ := of_locate_eq_ok hlocate
  rw [walkSteps_ofSteps_root (root_cases p) fun _ => isStep_of_mem_neighbour hstep.1,
    if_neg (concat_ne_nil _ _)] at hwalks
  have hshort := (hwalks.last_step rfl hstep.1.ne_stay hstep.2).1.short
  rw [append_assoc] at hshort
  exact absurd hshort (Nat.not_le.mpr hlong)

/-! ## A workspace with two results files -/

def twoFiles (base : Text) (first second : RunResults) : Workspace where
  store := ⟨[([base ++ ".txt"], .file (Report.ofLines first.lines) (.ofInt 60)),
    ([base ++ "_pid7_batch1.txt"], .file (Report.ofLines second.lines) (.ofInt 60))]⟩
  cwd := []

def twoRuns (base : Text) (first second : RunResults) (name : Text) : RunResults :=
  if name == base ++ ".txt" then first else second

theorem members_twoFiles {first second : RunResults} (hparent : parent (base ++ "_pid7_batch1.txt") = ".")
    (hmember : isMember base (base ++ "_pid7_batch1.txt") = true) :
    members (twoFiles base first second) (parent (base ++ "_pid7_batch1.txt")) base =
      [base ++ ofString ".txt", base ++ ofString "_pid7_batch1.txt"] := by
  have hlisted : ((twoFiles base first second).store.namesIn [] (parent (base ++ "_pid7_batch1.txt"))
      false).Perm [base ++ ofString ".txt", base ++ ofString "_pid7_batch1.txt"] := by
    rw [hparent, namesIn_root]
    exact mergeSort_perm _ _
  have hbase : ((twoFiles base first second).store.namesIn [] (parent (base ++ "_pid7_batch1.txt"))
      false).contains (base ++ ofString ".txt") = true :=
    contains_iff_mem.mpr (hlisted.symm.subset mem_cons_self)
  have hother : isMember base (base ++ ofString ".txt") = false := by
    rw [Bool.eq_false_iff, ne_eq, isMember_iff]
    rintro ⟨⟨inner, h⟩, -⟩
    rw [append_assoc, append_assoc] at h
    exact absurd (cons.inj (append_cancel_left h)).1 (by decide)
  have hfilter := hlisted.filter (isMember base)
  rw [filter_cons_of_neg (by rw [hother]; decide), filter_cons_of_pos hmember, filter_nil, perm_singleton] at hfilter
  exact congrArg₂ (· ++ ·) (if_pos hbase) hfilter

/-- A run over three files, one of which has a name like a count. -/
def firstRun : RunResults where
  files := [⟨"Total errors: 7", 2, 1, none⟩]
  totals := ⟨3, 2, 1, 2⟩
  whitelisted := ["Files processed: 99"]

def secondRun : RunResults where
  files := []
  totals := ⟨2, 0, 1200, 1⟩

/-- The files hold the results of their runs if they can be found under their names. -/
theorem holdsResults_twoFiles (hparent : parent (base ++ "_pid7_batch1.txt") = ".")
    (hmember : isMember base (base ++ "_pid7_batch1.txt") = true)
    (htext : ∀ n ∈ [base ++ ofString ".txt", base ++ ofString "_pid7_batch1.txt"],
      (twoFiles base firstRun secondRun).store.content? [] (child (parent (base ++ "_pid7_batch1.txt")) n) =
        some (ofLines (twoRuns base firstRun secondRun n).lines)) :
    HoldsResults (twoFiles base firstRun secondRun) (base ++ "_pid7_batch1.txt") base
      (twoRuns base firstRun secondRun) := by
  have hmembers := @members_twoFiles base firstRun secondRun hparent hmember
  refine ⟨by rw [hmembers]; exact Nat.le_refl 2, by rwa [hmembers], fun n _ => ?_⟩
  rw [twoRuns]
  split <;> exact ⟨by decide, by decide, by decide, by decide⟩

/-! ## The sums -/

/-- **The counts of a batch are the sums over its files**, whatever else these say, and there are counts exactly if
the summary can be written: no sum has too many digits, the names of the files are free of halves, and the name of
the summary can be that of a file. -/
theorem run_iff_isSumOf {results : Text → RunResults} (hnames : w.store.HasPlainNames)
    (hstamp : Text.isEncodable (w.date ++ " " ++ w.time) = true) (hp : IsBatchOf p base)
    (h : HoldsResults w p base results) (total : BatchCounts) :
    (∃ w', Session.runIn w (run p) = (.ok (some total), w')) ↔
      total.IsSumOf ((members w (FileName.parent p) base).map results) ∧ total.IsWritten ∧
        (∀ n ∈ members w (FileName.parent p) base, Text.isEncodable n = true) ∧
        w.store.IsWritable w.cwd (summaryName p) := by
  obtain ⟨files, hfiles, hperm⟩ := runIn_related hnames hp h
  have hchild : ∀ n ∈ members w (FileName.parent p) base, FileName.last (FileName.child (FileName.parent p) n) = n :=
    fun n hn => FileName.last_child_parent (isStep_of_mem_members hnames hn).1
  have hlast : (files.map FileName.last).Perm (members w (FileName.parent p) base) := by
    refine (hperm.map _).trans (List.Perm.of_eq ?_)
    rw [map_map]
    exact (map_congr_left hchild).trans (map_id _)
  have hread : ∀ file ∈ files, (results (FileName.last file)).totals.IsCount ∧
      w.store.content? w.cwd file = some (Report.ofLines (results (FileName.last file)).lines) := by
    intro file hfile
    obtain ⟨n, hn, rfl⟩ := List.mem_map.mp (hperm.subset hfile)
    rw [hchild n hn]
    exact ⟨h.count n hn, h.text n hn⟩
  have hseveral : 2 ≤ files.length := by
    rw [hperm.length_eq, length_map]
    exact h.several
  have hcount : ∀ r ∈ (members w (FileName.parent p) base).map results, r.totals.IsCount :=
    forall_mem_map.mpr h.count
  -- The sums do not depend on the order of the files.
  have hsum : BatchCounts.sum (files.map fun file => (results (FileName.last file)).counts) =
      BatchCounts.sum (((members w (FileName.parent p) base).map results).map RunResults.counts) := by
    have hcounts := ((hlast.map results).map RunResults.counts)
    rw [map_map, map_map] at hcounts
    exact hcounts.foldl_eq _
  have hencodable : (∀ b ∈ files.map fun file => (FileName.last file, (results (FileName.last file)).counts),
      Text.isEncodable b.1 = true) ↔ ∀ n ∈ members w (FileName.parent p) base, Text.isEncodable n = true := by
    rw [forall_mem_map]
    constructor
    · intro hall n hn
      obtain ⟨file, hfile, rfl⟩ := List.mem_map.mp (hlast.symm.subset hn)
      exact hall file hfile
    · intro hall file hfile
      exact hall _ (hlast.subset (mem_map_of_mem hfile))
  rw [exists_runIn_run_iff hp.isBatch hfiles hseveral hread, exists_runIn_writeSummary_iff,
    Session.exists_runIn_writeUntil_iff, BatchCounts.summaryLines_iff hstamp, hencodable,
    BatchCounts.isSumOf_iff hcount, map_map, ← hsum]
  constructor
  · rintro ⟨-, rfl, ⟨hwritten, hall⟩, hname⟩
    exact ⟨rfl, hwritten, hall, hname⟩
  · rintro ⟨rfl, hwritten, hall, hname⟩
    exact ⟨fun file hfile => hwritten.of_mem (mem_map_of_mem hfile), rfl, ⟨hwritten, hall⟩, hname⟩

theorem run_iff_isSumOf_results :
    ∃ w', runIn (twoFiles "results" firstRun secondRun) (run (ofString "results" ++ "_pid7_batch1.txt")) =
      (.ok (some ⟨5, 2, 1201, 3, 2⟩), w') := by
  have hname : last (ofString "results" ++ "_pid7_batch1.txt") =
        ofString "results" ++ "_pid" ++ "7_batch1" ++ ".txt" ∧
      holds (last (ofString "results" ++ "_pid7_batch1.txt")) "_batch" = true ∧
      isMember "results" (ofString "results" ++ "_pid7_batch1.txt") = true ∧
      parent (ofString "results" ++ "_pid7_batch1.txt") = "." ∧
      summaryName (ofString "results" ++ "_pid7_batch1.txt") = "results_AGGREGATED_SUMMARY.txt" := by
    decide +kernel
  obtain ⟨hlast, hbatch, hmember, hparent, hsummary⟩ := hname
  have hp : IsBatchOf (ofString "results" ++ "_pid7_batch1.txt") "results" :=
    ⟨⟨"7_batch1", hlast⟩, hbatch, by decide, by decide⟩
  have hmembers := @members_twoFiles "results" firstRun secondRun hparent hmember
  refine (run_iff_isSumOf (by rw [HasPlainNames]; decide) (by decide) hp
    (holdsResults_twoFiles hparent hmember (by decide +kernel)) _).mpr ⟨?_, ?_, ?_, ?_⟩
  · rw [hmembers]
    exact ⟨by decide, by decide, by decide, by decide, by decide⟩
  · rw [BatchCounts.IsWritten]
    decide +kernel
  · rw [hmembers]
    decide
  · rw [hsummary]
    exact ⟨checkName_eq_ok_iff.mpr (by decide), [ofString "results_AGGREGATED_SUMMARY.txt"], none, rfl, nofun⟩

/-- A base name that leaves no room for the name of a summary. -/
def longName : Text := List.replicate 233 'x'

/-- The results files of a batch may have names that leave no room for that of the summary, and then there are no
counts. -/
theorem not_always_summed : ¬ ∀ (w : Workspace) (p base : Text) (results : Text → RunResults), w.store.HasPlainNames →
      isEncodable (w.date ++ " " ++ w.time) = true → IsBatchOf p base → HoldsResults w p base results →
      ∃ total w', runIn w (run p) = (.ok (some total), w') ∧
        total.IsSumOf ((members w (parent p) base).map results) := by
  intro h
  have hname : (last (longName ++ "_pid7_batch1.txt") = longName ++ "_pid" ++ "7_batch1" ++ ".txt" ∧
      holds (last (longName ++ "_pid7_batch1.txt")) "_batch" = true ∧
      holds longName "_pid" = false ∧ Wildcard.isWild longName = false) ∧
      isMember longName (longName ++ "_pid7_batch1.txt") = true ∧ parent (longName ++ "_pid7_batch1.txt") = "." ∧
      stepLimit < encodedSize (longName ++ ofString "_AGGREGATED_SUMMARY.txt") := by
    decide +kernel
  obtain ⟨⟨hlast, hbatch, hfirst, hplain⟩, hmember, hparent, hlong⟩ := hname
  have hp : IsBatchOf (longName ++ "_pid7_batch1.txt") longName := ⟨⟨"7_batch1", hlast⟩, hbatch, hfirst, hplain⟩
  obtain ⟨total, w', hrun, -⟩ := h (twoFiles longName firstRun secondRun) _ _ _
    (by rw [HasPlainNames]; decide +kernel) (by decide) hp (holdsResults_twoFiles hparent hmember (by decide +kernel))
  obtain ⟨_, batches, u, v, -, -, -, -, hsummary⟩ := runIn_run_of_isBatch hp.isBatch hrun
  obtain ⟨-, v', hwrite, -⟩ := runIn_writeSummary hsummary
  exact not_isWritable_of_long hp hlong (exists_runIn_writeUntil_iff.mp ⟨v', hwrite⟩).2

end Aggregate

end ViewLint
