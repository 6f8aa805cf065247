import ViewLint.Proofs.KeptDirectories
import ViewLint.Proofs.ResultsFiles
import ViewLint.Proofs.Summaries

/-!
# The exit code of a run that finds errors

The exit code goes by the totals that are shown, and these may come from other files than the run has written.

* **`Run.exit_of_errors`**: a run that finds errors fails, unless quiet counts of other files displace its own.
-/

namespace ViewLint

open List Text Session BatchCounts Console

variable {o : Options} {ignoreWarnings : Bool} {t : Totals} {r : RunResults}

namespace BatchCounts

/-! ## Counts that are added up -/

theorem errors_foldl (batches : List BatchCounts) (start : BatchCounts) :
    (batches.foldl add start).errors = start.errors + (batches.map errors).sum := by
  induction batches generalizing start with
  | nil => rfl
  | cons b batches ih =>
    rw [foldl_cons, ih, map_cons, sum_cons, ← Nat.add_assoc]
    rfl

theorem errors_le_sum {b : BatchCounts} {batches : List BatchCounts} (h : b ∈ batches) :
    b.errors ≤ (sum batches).errors := by
  rw [sum, errors_foldl]
  exact Nat.le_add_left_of_le (le_sum_of_mem (mem_map_of_mem h))

/-- Whether a run with these counts passes. -/
def isQuiet (c : BatchCounts) (ignoreWarnings : Bool) : Bool :=
  c.errors == 0 && (ignoreWarnings || c.warnings == 0)

end BatchCounts

namespace Aggregate

variable {w w' : Workspace} {name : Text} {c : BatchCounts}

/-! ## Counts of other files -/

/-- The counts of other files in place of those of a results file. -/
inductive Displaces (w : Workspace) (name : Text) (c : BatchCounts) : Prop where
  /-- A summary that is there stands for a file that is no batch. -/
  | summary {text : Text} (hname : isBatch name = false)
      (htext : w.store.content? w.cwd (summaryName name) = some text)
      (hread : BatchCounts.read (normalizeBreaks text) = .ok (some c))
  /-- Other batches stand for one that is not related to itself. -/
  | batches {files : List Text} {v w' : Workspace} (hname : isBatch name = true)
      (hfiles : runIn w (related name) = (.ok files, v)) (hown : name ∉ files)
      (hrun : runIn w (run name) = (.ok (some c), w'))

theorem Displaces.run (h : Displaces w name c) : ∃ w', runIn w (run name) = (.ok (some c), w') := by
  cases h with
  | summary hname htext hread => exact ⟨w, by rw [run_of_not_isBatch hname, runIn_earlier htext hread]⟩
  | batches _ _ _ hrun => exact ⟨_, hrun⟩

theorem summary_of_runIn_earlier (h : runIn w (earlier name) = (.ok (some c), w')) :
    ∃ text, w.store.content? w.cwd (summaryName name) = some text ∧ read (normalizeBreaks text) = .ok (some c) := by
  obtain ⟨there, v, hthere, h⟩ := runIn_bind_eq_ok.mp h
  have hv : SameFiles w v := (Keeps.checkedExists _).of_eq_ok hthere
  cases there with
  | false => cases h
  | true =>
    rw [Bool.not_true, if_neg (by decide), runIn_bind, runIn_attempt, runIn_readFile] at h
    cases hread : v.store.read v.cwd (summaryName name) with
    | error f =>
      rw [hread] at h
      cases f <;> cases h
    | ok found =>
      obtain ⟨text, htext, rfl⟩ := Store.read_eq_ok_iff.mp hread
      rw [hread] at h
      refine ⟨text, by rw [← hv.store, ← hv.cwd, htext], ?_⟩
      cases hcounts : read (normalizeBreaks text) with
      | error f => simp [hcounts] at h
      | ok counts =>
        simp only [runIn_lift_ok, hcounts] at h
        cases h
        rfl

theorem counted_of_mem {files : List Text} {batches : List (Text × BatchCounts)} (hname : name ∈ files)
    (h : runIn w (files.filterMapM countsOf) = (.ok batches, w')) :
    ∃ v v' counts, SameFiles w v ∧ runIn v (countsOf name) = (.ok counts, v') ∧
      ∀ b, counts = some b → b ∈ batches := by
  induction files generalizing w batches with
  | nil => cases hname
  | cons file files ih =>
    rw [filterMapM_cons] at h
    obtain ⟨counts, v, hcounts, h⟩ := runIn_bind_eq_ok.mp h
    have hv : SameFiles w v := (keeps_countsOf file).of_eq_ok hcounts
    -- The counts of the first file stand before those of the rest.
    have hrest : ∃ others, runIn v (files.filterMapM countsOf) = (.ok others, w') ∧
        batches = counts.toList ++ others := by
      cases counts with
      | none => exact ⟨batches, h, rfl⟩
      | some b =>
        obtain ⟨others, v', hothers, h⟩ := runIn_bind_eq_ok.mp h
        cases h
        exact ⟨others, hothers, rfl⟩
    obtain ⟨others, hothers, rfl⟩ := hrest
    obtain rfl | hname := mem_cons.mp hname
    · refine ⟨w, v, counts, .refl w, hcounts, ?_⟩
      rintro b rfl
      exact mem_cons_self
    · obtain ⟨u, u', counts', hu, hcounts', hmem⟩ := ih hname hothers
      exact ⟨u, u', counts', hv.trans hu, hcounts', fun b hb => mem_append_right _ (hmem b hb)⟩

theorem errors_of_countsOf (hprocessed : 0 ≤ r.totals.processed) (herrors : 0 ≤ r.totals.errors)
    (hown : w.store.content? w.cwd name = some (r.lines.map (· ++ ofString "\n")).flatten)
    {found : Option (Text × BatchCounts)} (h : runIn w (countsOf name) = (.ok found, w')) :
    ∃ b, found = some b ∧ (b.2.errors : Int) = r.totals.errors := by
  rw [countsOf, runIn_bind_of_ok (runIn_attempt_readFile_of_content? hown)] at h
  obtain ⟨counts, v, hcounts, h⟩ := runIn_bind_eq_ok.mp h
  cases hread : read (normalizeBreaks (r.lines.map (· ++ ofString "\n")).flatten) with
  | error f => rw [hread] at hcounts; cases hcounts
  | ok counts' =>
    rw [hread] at hcounts
    cases hcounts
    obtain ⟨b, rfl, hb⟩ := RunResults.errors_of_read hprocessed herrors hread
    cases h
    exact ⟨_, rfl, hb⟩

theorem displaces_or_le (hprocessed : 0 ≤ r.totals.processed) (herrors : 0 ≤ r.totals.errors)
    (hown : w.store.content? w.cwd name = some (r.lines.map (· ++ ofString "\n")).flatten)
    (h : runIn w (run name) = (.ok (some c), w')) :
    Displaces w name c ∨ r.totals.errors ≤ c.errors := by
  cases hname : isBatch name with
  | false =>
    rw [run_of_not_isBatch hname] at h
    obtain ⟨text, htext, hread⟩ := summary_of_runIn_earlier h
    exact .inl (.summary hname htext hread)
  | true =>
    obtain ⟨files, batches, v, v', hfiles, -, hbatches, -, hsummary⟩ := runIn_run_of_isBatch hname h
    by_cases hmem : name ∈ files
    · have hv : SameFiles w v := (keeps_related name).of_eq_ok hfiles
      obtain ⟨u, u', counts, hu, hcounts, hcounted⟩ := counted_of_mem hmem hbatches
      have hu := hv.trans hu
      rw [← hu.store, ← hu.cwd] at hown
      obtain ⟨b, rfl, hb⟩ := errors_of_countsOf hprocessed herrors hown hcounts
      obtain ⟨rfl, -⟩ := runIn_writeSummary hsummary
      have hle := errors_le_sum (mem_map_of_mem (f := (·.2)) (hcounted b rfl))
      exact .inr (by omega)
    · exact .inl (.batches hname hfiles hmem h)

end Aggregate

namespace Run

/-! ## The parts of a run -/

/-- Writes the timing report, if it is wanted. -/
def reportTiming (o : Options) (p : Progress) : Session Unit := do
  match o.timingOutput with
  | some path =>
    writeTiming path (← lift ((p.timing.stop (.float (← now))).mapError .overflow))
  | none => pure ()

def foundIn (o : Options) (engine : Engine) (c : Collected) : Session RunResults := do
  let timing ← startTiming o
  let p ← files o.each { engine, timing } c.chosen
  let (p, last) ← finish o.each c.chosen.length p
  reportTiming o p
  return { files := p.results, totals := p.totals, finish := last, whitelisted := c.whitelisted }

def found (o : Options) : Session RunResults := do
  clean o
  let whitelist ← whitelist o
  let engine ← prepare o
  let c ← Collect.run whitelist o.filenames o.files o.each.verbose
  if c.chosen.isEmpty then
    printLine "❌ No files specified or found"
    exit 0
  if o.each.verbose then
    printLine ("📁 Processing " ++ natText c.chosen.length ++ " files")
  foundIn o engine c

/-- The totals to be shown, which may be those of several batches. -/
def shown (o : Options) (r : RunResults) : Session Totals :=
  match o.resultsOutput with
  | some path => if o.each.statsOnly then return r.totals else writeResults path r
  | none => return r.totals

theorem report_eq (o : Options) (p : Progress) (last : Option LintResults) (whitelisted : List Text) :
    report o p last whitelisted = (do
      reportTiming o p
      shown o { files := p.results, totals := p.totals, finish := last, whitelisted }) := by
  unfold report reportTiming shown
  cases o.timingOutput <;> cases o.resultsOutput <;> cases o.each.statsOnly <;> simp

theorem lint_eq (o : Options) : lint o = (do
    let r ← found o
    conclude o (← shown o r)) := by
  unfold lint found foundIn
  simp only [report_eq, bind_assoc]
  refine bind_congr fun _ => bind_congr fun whitelist => bind_congr fun engine => bind_congr fun c => ?_
  cases c.chosen.isEmpty <;> cases o.each.verbose <;> simp

/-- Writes the results file and gives its name. -/
def putResults (path : Text) (r : RunResults) : Session Text := do
  let name ← Output.unique (FileName.tidy path)
  makeDirectories (FileName.parent name)
  writeLines name r.lines
  printLine ("\n📝 Results written to: " ++ name)
  return name

/-- The totals to be shown, given the counts of several files if there are any. -/
def shownWith (t : Totals) : Option BatchCounts → Totals
  | some c => ⟨c.files, c.warnings, c.errors, c.issues⟩
  | none => t

theorem writeResults_eq (path : Text) (r : RunResults) : writeResults path r = (do
    let name ← putResults path r
    return shownWith r.totals (← Aggregate.run name)) := by
  simp only [writeResults, putResults, bind_assoc, pure_bind]
  refine bind_congr fun name => bind_congr fun _ => bind_congr fun _ => bind_congr fun _ => bind_congr fun counts => ?_
  cases counts <;> rfl

/-! ## What a run counts -/

theorem gives_runOn (o : FileRun.Options) (e : Engine) (file : Text) (h : o.statsOnly = true) :
    Session.Gives (·.errors = 0) (FileRun.runOn o e file) := by
  refine .after fun start => .after fun (doc, _) => ?_
  dsimp only
  split
  · exact .after fun _ => .pure rfl
  · refine .after fun (flat, _) => ?_
    dsimp only
    split
    · exact .after fun _ => .pure rfl
    · refine .after fun ((e, stats), _) => .after fun e => ?_
      exact .pure rfl

theorem gives_fileRun (o : FileRun.Options) (e : Engine) (file : Text) (h : o.statsOnly = true) :
    Session.Gives (·.errors = 0) (FileRun.run o e file) := by
  refine .after fun there => ?_
  split
  · exact .after fun _ => .pure rfl
  · exact .after fun _ => gives_runOn o e file h

/-- The totals of a run: nothing is counted below zero, and no errors where files are only surveyed. -/
structure IsCounted (o : FileRun.Options) (t : Totals) : Prop where
  processed : 0 ≤ t.processed
  warnings : 0 ≤ t.warnings
  errors : 0 ≤ t.errors
  surveyed : o.statsOnly = true → t.errors = 0

theorem gives_file (o : FileRun.Options) {p : Progress} (hp : IsCounted o p.totals) (name : Text) :
    Session.Gives (fun p' => IsCounted o p'.totals) (file o p name) := by
  have hdone : Session.Gives (fun d => o.statsOnly = true → d.errors = 0) (FileRun.run o p.engine name) :=
    fun _ _ _ hrun hstats => gives_fileRun o p.engine name hstats hrun
  refine .bind hdone fun d hd => .pure ⟨?_, ?_, ?_, fun hstats => ?_⟩
  · exact Int.add_nonneg hp.processed (by decide)
  · exact Int.add_nonneg hp.warnings (Int.natCast_nonneg _)
  · exact Int.add_nonneg hp.errors (Int.natCast_nonneg _)
  · change p.totals.errors + (d.errors : Int) = 0
    rw [hp.surveyed hstats, hd hstats]
    rfl

theorem gives_finish (o : FileRun.Options) (count : Nat) {p : Progress} (hp : IsCounted o p.totals) :
    Session.Gives (fun r => IsCounted o r.1.totals) (finish o count p) := by
  rw [finish]
  split
  · exact .pure hp
  · rename_i hstats
    refine .after fun (engine, r) => .after fun _ => .pure ?_
    simp only [addFinish]
    split
    · exact hp
    · exact ⟨hp.processed, Int.add_nonneg hp.warnings (Int.natCast_nonneg _),
        Int.add_nonneg hp.errors (Int.natCast_nonneg _), fun h => absurd h hstats⟩

theorem gives_foundIn (o : Options) (engine : Engine) (c : Collected) :
    Session.Gives (fun r => IsCounted o.each r.totals) (foundIn o engine c) := by
  refine .after fun timing => .bind (Session.Gives.foldlM (fun p name hp => gives_file o.each hp name) c.chosen ?_)
    fun p hp => .bind (gives_finish o.each c.chosen.length hp) fun (p, last) hp => .after fun _ => .pure hp
  exact ⟨Int.le_refl 0, Int.le_refl 0, Int.le_refl 0, fun _ => rfl⟩

theorem gives_found (o : Options) : Gives (fun r => IsCounted o.each r.totals) (found o) := by
  refine .after fun _ => .after fun whitelist => .after fun engine => .after fun c => ?_
  dsimp only
  split
  · exact .after fun _ _ _ _ hb => by cases hb
  · split
    · exact .after fun _ => gives_foundIn o engine c
    · exact gives_foundIn o engine c

/-! ## The exit code -/

theorem content?_putResults {w v : Workspace} {path name : Text}
    (hground : w.store.IsGrounded w.cwd) (h : runIn w (putResults path r) = (.ok name, v)) :
    v.store.content? v.cwd name = some (r.lines.map (· ++ ofString "\n")).flatten := by
  obtain ⟨name', v₁, hname, h⟩ := runIn_bind_eq_ok.mp h
  obtain ⟨⟨⟩, v₂, hmake, h⟩ := runIn_bind_eq_ok.mp h
  obtain ⟨⟨⟩, v₃, hwrite, h⟩ := runIn_bind_eq_ok.mp h
  have hv₁ : SameTree w v₁ := (Output.keeps_unique _).of_eq_ok hname
  have hv₂ : SameTree v₁ v₂ := (Keeps.makeDirectories _).of_eq_ok hmake
  have hout := content?_of_writeLines (.inr (hv₂.isGrounded (hv₁.isGrounded hground))) hwrite
  cases h
  exact hout

theorem exitCode_eq_zero_iff : exitCode t false ignoreWarnings = 0 ↔
      t.warnings + t.errors = 0 ∨ ignoreWarnings = true ∧ t.errors = 0 := by
  simp [exitCode, or_iff_not_imp_left]

theorem exitCode_shownWith_eq_zero_iff {c : BatchCounts} :
    exitCode (shownWith t (some c)) false ignoreWarnings = 0 ↔ c.isQuiet ignoreWarnings = true := by
  rw [exitCode_eq_zero_iff, isQuiet, shownWith]
  cases ignoreWarnings <;> simp <;> omega

/-- The totals that are shown are those of the run, or come from the results files. -/
theorem runIn_shown {w w' : Workspace} (hstats : o.each.statsOnly = false) (h : runIn w (shown o r) = (.ok t, w')) :
    o.resultsOutput = none ∧ t = r.totals ∨
      ∃ path name v counts, o.resultsOutput = some path ∧ runIn w (putResults path r) = (.ok name, v) ∧
        runIn v (Aggregate.run name) = (.ok counts, w') ∧ t = shownWith r.totals counts := by
  rw [shown] at h
  cases hpath : o.resultsOutput with
  | none =>
    rw [hpath] at h
    cases h
    exact .inl ⟨rfl, rfl⟩
  | some path =>
    simp only [hpath, hstats, Bool.false_eq_true, if_false, writeResults_eq] at h
    obtain ⟨name, v, hput, h⟩ := runIn_bind_eq_ok.mp h
    obtain ⟨counts, v', hcounts, h⟩ := runIn_bind_eq_ok.mp h
    cases h
    exact .inr ⟨path, name, v, counts, rfl, hput, hcounts, rfl⟩

/-- A run that shows its summary ends with the exit code for what it shows. -/
theorem runIn_lint {w w₁ w₂ : Workspace}
    (hfound : runIn w (found o) = (.ok r, w₁)) (hshown : runIn w₁ (shown o r) = (.ok t, w₂)) :
    ∃ w₃, runIn w (lint o) = (.error (.exit (exitCode t o.each.statsOnly o.ignoreWarnings)), w₃) := by
  rw [lint_eq, runIn_bind_of_ok hfound, runIn_bind_of_ok hshown, conclude, runIn_bind_of_ok (runIn_printLines _ _)]
  exact ⟨_, rfl⟩

/-- A command line that asks for no whitelist asks for a run over files. -/
theorem command_of_lint {args : List Text} (hargs : Options.read args = .ok o)
    (hmode : o.generateWhitelist.isEmpty = true) (program : Text) : command program args = lint o := by
  rw [command, hargs]
  exact if_pos hmode

/-- **A run that finds errors fails, unless quiet counts of other files displace its own.** -/
theorem exit_of_errors {program : Text} {args : List Text} {o : Options} {w w₁ w₂ : Workspace} {r : RunResults}
    {t : Totals} (hargs : Options.read args = .ok o) (hmode : o.generateWhitelist.isEmpty = true)
    (hfound : runIn w (found o) = (.ok r, w₁)) (hground : w₁.store.IsGrounded w₁.cwd)
    (herrors : 0 < r.totals.errors) (hshown : runIn w₁ (shown o r) = (.ok t, w₂)) :
    ∃ code w₃, runIn w (command program args) = (.error (.exit code), w₃) ∧ (code = 0 ∨ code = 1) ∧
      (code = 0 ↔ ∃ path name v c, o.resultsOutput = some path ∧
        runIn w₁ (putResults path r) = (.ok name, v) ∧ Aggregate.Displaces v name c ∧
        c.isQuiet o.ignoreWarnings = true) := by
  have hcounted : IsCounted o.each r.totals := gives_found o hfound
  have hstats : o.each.statsOnly = false := by
    rw [← Bool.not_eq_true]
    intro hstats
    have := hcounted.surveyed hstats
    omega
  have hown : exitCode r.totals false o.ignoreWarnings ≠ 0 := by
    rw [ne_eq, exitCode_eq_zero_iff]
    have := hcounted.warnings
    omega
  obtain ⟨w₃, hlint⟩ := runIn_lint hfound hshown
  rw [command_of_lint hargs hmode]
  refine ⟨_, w₃, hlint, by rw [exitCode]; split <;> simp, ?_⟩
  rw [hstats]
  obtain ⟨hnone, rfl⟩ | ⟨path, name, v, counts, hpath, hput, hcounts, rfl⟩ := runIn_shown hstats hshown
  · refine iff_of_false hown ?_
    rintro ⟨path, _, _, _, hpath, -⟩
    exact nomatch hnone.symm.trans hpath
  -- What is displaced is displaced by what is shown.
  have hsame {path' name' : Text} {v' : Workspace} {c : BatchCounts} (hpath' : o.resultsOutput = some path')
      (hput' : runIn w₁ (putResults path' r) = (.ok name', v')) (hc : Aggregate.Displaces v' name' c) :
      counts = some c := by
    cases hpath.symm.trans hpath'
    cases hput.symm.trans hput'
    obtain ⟨w', hrun⟩ := hc.run
    cases hcounts.symm.trans hrun
    rfl
  cases counts with
  | none =>
    refine iff_of_false hown ?_
    rintro ⟨_, _, _, _, hpath', hput', hc, -⟩
    exact nomatch hsame hpath' hput' hc
  | some c =>
    rw [exitCode_shownWith_eq_zero_iff]
    constructor
    · intro hquiet
      refine ⟨path, name, v, c, hpath, hput, ?_, hquiet⟩
      obtain hc | hle := Aggregate.displaces_or_le hcounted.processed hcounted.errors (content?_putResults hground hput)
        hcounts
      · exact hc
      · have hzero : c.errors = 0 := by simp [BatchCounts.isQuiet] at hquiet; exact hquiet.1
        omega
    · rintro ⟨_, _, _, _, hpath', hput', hc, hquiet⟩
      cases hsame hpath' hput' hc
      exact hquiet

/-- A view with an error, and the summary of an earlier run. -/
def summaryLeft : Workspace where
  store := ⟨[([ofString "rule_config.json"], .file "\x7b\"ExampleMixedSeverityRule\": \x7b\x7d\x7d" (.ofInt 60)),
    ([ofString "view.json"],
      .file "\x7b\"root\": \x7b\"meta\": \x7b\"name\": \"AdminPanel\"\x7d\x7d\x7d" (.ofInt 60)),
    ([ofString "out"], .directory (.ofInt 60)),
    ([ofString "out", ofString "results_AGGREGATED_SUMMARY.txt"],
      .file "Files processed: 1\nTotal errors: 0\n" (.ofInt 60))]⟩
  cwd := []

/-- A command line that names the view and a results file. -/
def argsLeft : List Text := ["view.json", "--results-output", "out/results.txt"]

def optionsLeft : Options := { filenames := ["view.json"], resultsOutput := some "out/results.txt" }

theorem read_argsLeft : Options.read argsLeft = .ok optionsLeft := by rfl

theorem runIn_summaryLeft :
    ∃ r w₁ t w₂, runIn summaryLeft (found optionsLeft) = (.ok r, w₁) ∧ w₁.store.IsGrounded w₁.cwd ∧
      0 < r.totals.errors ∧ runIn w₁ (shown optionsLeft r) = (.ok t, w₂) ∧ exitCode t false false = 0 := by
  have hrun : ∃ r w₁, runIn summaryLeft (found optionsLeft) = (.ok r, w₁) ∧ ∃ t w₂,
      runIn w₁ (shown optionsLeft r) = (.ok t, w₂) ∧ w₁.cwd = [] ∧ 0 < r.totals.errors ∧ exitCode t false false = 0 := by
    decide +kernel
  obtain ⟨r, w₁, hfound, t, w₂, hshown, hcwd, herrors, hcode⟩ := hrun
  exact ⟨r, w₁, t, w₂, hfound, hcwd ▸ Store.isGrounded_root, herrors, hshown, hcode⟩

theorem exit_of_errors_summaryLeft :
    ∃ r w₁ t w₂, Options.read argsLeft = .ok optionsLeft ∧ optionsLeft.generateWhitelist.isEmpty = true ∧
      runIn summaryLeft (found optionsLeft) = (.ok r, w₁) ∧ w₁.store.IsGrounded w₁.cwd ∧
      0 < r.totals.errors ∧
      runIn w₁ (shown optionsLeft r) = (.ok t, w₂) ∧
      ∃ code w₃, runIn summaryLeft (command "lint" argsLeft) = (.error (.exit code), w₃) ∧ (code = 0 ∨ code = 1) ∧
        (code = 0 ↔ ∃ path name v c, optionsLeft.resultsOutput = some path ∧
          runIn w₁ (putResults path r) = (.ok name, v) ∧ Aggregate.Displaces v name c ∧
          c.isQuiet optionsLeft.ignoreWarnings = true) := by
  obtain ⟨r, w₁, t, w₂, hfound, hground, herrors, hshown, -⟩ := runIn_summaryLeft
  exact ⟨r, w₁, t, w₂, read_argsLeft, rfl, hfound, hground, herrors, hshown,
    exit_of_errors read_argsLeft rfl hfound hground herrors hshown⟩

/-- A run passes although it has found an error. -/
theorem command_misses_errors : ∃ r w₁ w₂, runIn summaryLeft (found optionsLeft) = (.ok r, w₁) ∧ 0 < r.totals.errors ∧
      runIn summaryLeft (command "lint" argsLeft) = (.error (.exit 0), w₂) := by
  obtain ⟨r, w₁, t, w₂, hfound, -, herrors, hshown, hcode⟩ := runIn_summaryLeft
  obtain ⟨w₃, hlint⟩ := runIn_lint hfound hshown
  refine ⟨r, w₁, w₃, hfound, herrors, ?_⟩
  rw [command_of_lint read_argsLeft rfl, hlint]
  exact congrArg (fun code => (Except.error (Stop.exit code), w₃)) hcode

end Run

end ViewLint
