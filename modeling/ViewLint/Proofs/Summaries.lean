import ViewLint.Proofs.Labels
import ViewLint.Proofs.Sessions

/-!
# Summaries that are read back

The counts of several results files are added up and written to a summary, from which a later run reads them. Two of
the five are written with their digits in groups of three, and of these only the first group is read.

* **`Aggregate.run_after_summary`**: the counts of a batch, and those that the next run reads.
-/

namespace ViewLint

open List Text Session BatchCounts

namespace BatchCounts

variable {texts : List Text} {stamp : Text} {batches : List (Text × BatchCounts)} {t : BatchCounts}

/-! ## The text of a summary -/

theorem writtenInt_natCast {n : Nat} {s : Text} (h : writtenInt n = .ok s) :
    n < Nat.pow 10 Json.digitLimit ∧ s = natText n := by
  rw [writtenInt, Int.natAbs_natCast] at h
  split at h
  · cases h
  · rename_i hn
    cases h
    exact ⟨Nat.lt_of_not_le hn, rfl⟩

/-- Whether all counts have few enough digits to be written. -/
def IsWritten (t : BatchCounts) : Prop :=
  ∀ n ∈ [t.files, t.warnings, t.errors, t.issues, t.clean], n < Nat.pow 10 Json.digitLimit

def summaryWordings : List Text :=
  [repeated 80 "=", "AGGREGATED IGNITION-LINT RESULTS SUMMARY", repeated 80 "=", "Generated: ",
    "Total batches: ", "", "TOTAL SUMMARY ACROSS ALL BATCHES", repeated 80 "-", "Files processed:      ",
    "Total warnings:       ", "Total errors:         ", "Files with issues:    ", "Clean files:          "]

theorem isLabelAt_summaryWordings :
    isLabelAt "Files processed:" summaryWordings 8 = true ∧ isLabelAt "Total warnings:" summaryWordings 9 = true ∧
      isLabelAt "Total errors:" summaryWordings 10 = true ∧ isLabelAt "Files with issues:" summaryWordings 11 = true ∧
      isLabelAt "Clean files:" summaryWordings 12 = true := by
  decide +kernel

def summaryFigures (stamp : Text) (count : Nat) (t : BatchCounts) : List Text :=
  [[], [], [], stamp, natText count, [], [], [], natText t.files, grouped t.warnings, grouped t.errors,
    natText t.issues, natText t.clean]

theorem texts_of_totalLines (h : totalLines t = texts.map .ok) : t.IsWritten ∧
      texts = ((summaryWordings.drop 8).zip ((summaryFigures [] 0 t).drop 8)).map fun l => l.1 ++ l.2 := by
  have hwritten {label text : Text} {n : Nat} {shown : Text → Text}
      (h : (do return label ++ shown (← writtenInt n) : Except Fault Text) = .ok text) :
      n < Nat.pow 10 Json.digitLimit ∧ text = label ++ shown (natText n) := by
    cases hn : writtenInt n with
    | error f => rw [hn] at h; cases h
    | ok s =>
      rw [hn] at h
      cases h
      exact ⟨(writtenInt_natCast hn).1, by rw [(writtenInt_natCast hn).2]⟩
  have hlength : texts.length = 5 := by
    rw [← length_map, ← h]
    rfl
  obtain ⟨files, warnings, errors, issues, clean, rfl⟩ : ∃ a b c d e, texts = [a, b, c, d, e] := by
    match texts, hlength with
    | [a, b, c, d, e], _ => exact ⟨a, b, c, d, e, rfl⟩
  simp only [totalLines, map_cons, map_nil, cons.injEq, and_true] at h
  obtain ⟨hfiles, hwarnings, herrors, hissues, hclean⟩ := h
  obtain ⟨hfiles', rfl⟩ := hwritten hfiles
  obtain ⟨hwarnings', rfl⟩ := hwritten hwarnings
  obtain ⟨herrors', rfl⟩ := hwritten herrors
  obtain ⟨hissues', rfl⟩ := hwritten hissues
  obtain ⟨hclean', rfl⟩ := hwritten hclean
  refine ⟨?_, rfl⟩
  simp only [IsWritten, forall_mem_cons]
  exact ⟨hfiles', hwarnings', herrors', hissues', hclean', nofun⟩

theorem text_of_summaryLines (h : summaryLines stamp batches = texts.map .ok) : (sum (batches.map (·.2))).IsWritten ∧
      ∃ rest, (texts.map (· ++ ofString "\n")).flatten = figureLines
        (summaryWordings.zip (summaryFigures stamp batches.length (sum (batches.map (·.2))))) ++ rest := by
  obtain ⟨heading, rest, rfl, hheading, hrest⟩ := map_eq_append_iff.mp h.symm
  obtain ⟨totals, rest, rfl, htotals, -⟩ := map_eq_append_iff.mp hrest
  obtain ⟨hwritten, rfl⟩ := texts_of_totalLines htotals.symm
  have hheading := map_injective_iff.mpr (fun _ _ => Except.ok.inj) hheading
  subst hheading
  refine ⟨hwritten, (rest.map (· ++ ofString "\n")).flatten, ?_⟩
  rw [figureLines_append, ← append_assoc]
  simp only [summaryWordings, summaryFigures, drop, zip_cons_cons, zip_nil_left, map_cons,
    map_nil, append_nil, cons_append, nil_append]

theorem isFigure_of_mem_summaryFigures (hstamp : ∀ c ∈ stamp, isFigure c = true) (count : Nat)
    (t : BatchCounts) : ∀ f ∈ summaryFigures stamp count t, ∀ c ∈ f, isFigure c = true := by
  have hnat (n : Nat) : ∀ c ∈ natText n, isFigure c = true := fun _ => isFigure_of_mem_natText
  have hgrouped (n : Nat) : ∀ c ∈ grouped n, isFigure c = true := by
    obtain ⟨tail, hgrouped, -, htail⟩ := grouped_eq n
    rw [hgrouped, forall_mem_append]
    exact ⟨hnat _, htail⟩
  simp only [summaryFigures, forall_mem_cons, not_mem_nil, false_implies, implies_true, true_and, and_true]
  exact ⟨hstamp, hnat _, hnat _, hgrouped _, hgrouped _, hnat _, hnat _⟩

/-! ## What is read from it -/

def asRead (t : BatchCounts) : BatchCounts :=
  { t with warnings := leadingGroup t.warnings, errors := leadingGroup t.errors }

theorem read_of_number? {text : Text} (hfiles : number? "Files processed:" text = .ok (some t.files))
    (hwarnings : number? "Total warnings:" text = .ok (some t.warnings))
    (herrors : number? "Total errors:" text = .ok (some t.errors))
    (hissues : number? "Files with issues:" text = .ok (some t.issues))
    (hclean : number? "Clean files:" text = .ok (some t.clean)) : read text = .ok (some t) := by
  simp only [read, number, hfiles, hwarnings, herrors, hissues, hclean]
  rfl

theorem read_summary (hstamp : ∀ c ∈ stamp, isFigure c = true) (count : Nat) (ht : t.IsWritten) (rest : Text) :
    read (normalizeBreaks (figureLines (summaryWordings.zip (summaryFigures stamp count t)) ++ rest)) =
      .ok (some t.asRead) := by
  have hfigures := isFigure_of_mem_summaryFigures hstamp count t
  have hgroup (n : Nat) : leadingGroup n < Nat.pow 10 Json.digitLimit := by
    have hthree : (natDigits (leadingGroup n)).length ≤ 3 :=
      (length_natDigits_le_iff (by decide)).mpr (leadingGroup_lt n)
    exact (length_natDigits_le_iff (by decide)).mp (hthree.trans (by decide))
  simp only [IsWritten, forall_mem_cons] at ht
  obtain ⟨hfiles, -, -, hissues, hclean, -⟩ := ht
  obtain ⟨warnings, hwarnings, hnext, -⟩ := grouped_eq t.warnings
  obtain ⟨errors, herrors, hnext', -⟩ := grouped_eq t.errors
  have hplain (n : Nat) : some (natText n) = some (natText n ++ []) := by rw [append_nil]
  obtain ⟨hfiles', hwarnings', herrors', hissues', hclean'⟩ := isLabelAt_summaryWordings
  rw [normalizeBreaks_append (return_not_mem_figureLines (by decide +kernel) hfigures)]
  exact read_of_number? (number?_of_first? (first?_of_isLabelAt hfiles' hfigures (hplain _) nofun _) hfiles)
    (number?_of_first? (first?_of_isLabelAt hwarnings' hfigures (congrArg some hwarnings) hnext _) (hgroup _))
    (number?_of_first? (first?_of_isLabelAt herrors' hfigures (congrArg some herrors) hnext' _) (hgroup _))
    (number?_of_first? (first?_of_isLabelAt hissues' hfigures (hplain _) nofun _) hissues)
    (number?_of_first? (first?_of_isLabelAt hclean' hfigures (hplain _) nofun _) hclean)

theorem asRead_eq_self_iff : t.asRead = t ↔ t.warnings < 1000 ∧ t.errors < 1000 := by
  rw [← leadingGroup_eq_self_iff, ← leadingGroup_eq_self_iff]
  constructor
  · intro h
    exact ⟨congrArg warnings h, congrArg errors h⟩
  · rintro ⟨hwarnings, herrors⟩
    rw [asRead, hwarnings, herrors]

end BatchCounts

namespace Aggregate

variable {R : Workspace → Workspace → Prop} {w w' : Workspace} {p q : Text} {total : BatchCounts}

/-! ## How the counts of batches come about -/

theorem keeps_related [AboutFiles R] (path : Text) : Keeps R (related path) := by
  refine .bind (.checkedExists _) fun found => ?_
  exact .bind (.globIn _ _) fun _ => .pure _

theorem keeps_countsOf [AboutFiles R] (path : Text) : Keeps R (countsOf path) := by
  refine .bind (.attempt (.readFile _)) fun read => ?_
  split
  · exact .bind (.lift _) fun _ => .pure _
  · exact .bind (.printLine _) fun _ => .pure _
  · exact .fail _

/-- The counts of batches are those of the related files that can be read, if there are several. -/
theorem runIn_run_of_isBatch (hp : isBatch p = true) (h : runIn w (run p) = (.ok (some total), w')) :
    ∃ files batches v v', runIn w (related p) = (.ok files, v) ∧ 1 < files.length ∧
      runIn v (files.filterMapM countsOf) = (.ok batches, v') ∧ batches ≠ [] ∧
      runIn v' (writeSummary p batches) = (.ok (some total), w') := by
  rw [run, hp] at h
  obtain ⟨files, v, hfiles, h⟩ := runIn_bind_eq_ok.mp h
  split at h
  · cases h
  · rename_i hlength
    obtain ⟨batches, v', hbatches, h⟩ := runIn_bind_eq_ok.mp h
    split at h
    · cases h
    · rename_i hempty
      refine ⟨files, batches, v, v', hfiles, Nat.lt_of_not_le hlength, hbatches, ?_, h⟩
      simpa using hempty

theorem runIn_writeSummary (h : runIn w (writeSummary p batches) = (.ok (some total), w')) :
    total = BatchCounts.sum (batches.map (·.2)) ∧ ∃ v, runIn w (writeUntil (summaryName p)
        (summaryLines (w.date ++ " " ++ w.time) batches)) = (.ok (), v) ∧ SameFiles v w' := by
  obtain ⟨_, _, hstamp, h⟩ := runIn_bind_eq_ok.mp h
  cases hstamp
  rw [runIn_bind, runIn_attempt] at h
  rcases hwrite : runIn w (writeUntil (summaryName p)
    (summaryLines (w.date ++ " " ++ w.time) batches)) with ⟨(f | code) | u, v⟩
  · rw [hwrite] at h
    cases f <;> cases h
  · rw [hwrite] at h
    cases h
  · rw [hwrite] at h
    cases h
    exact ⟨rfl, v, rfl, rfl, rfl, rfl, rfl⟩

/-! ## The counts that the next run reads -/

theorem runIn_earlier {text : Text} {counts : Option BatchCounts}
    (htext : w.store.content? w.cwd (summaryName q) = some text)
    (hread : read (normalizeBreaks text) = .ok counts) :
    runIn w (earlier q) = (.ok counts, w) := by
  rw [earlier, runIn_bind_of_ok (runIn_checkedExists_of_content? htext)]
  simp only [Bool.not_true, Bool.false_eq_true, if_false]
  rw [runIn_bind_of_ok (runIn_attempt_readFile_of_content? htext)]
  simp only [hread]
  rfl

theorem run_of_not_isBatch (hq : isBatch q = false) : run q = earlier q := by
  rw [run, hq]
  exact if_pos rfl

/-- **The counts of batches as the next run reads them from their summary.** They are the same exactly if there are
fewer than a thousand warnings and fewer than a thousand errors. -/
theorem run_after_summary (hground : w.store.IsGrounded w.cwd)
    (hstamp : ∀ c ∈ w.date ++ " " ++ w.time, BatchCounts.isFigure c = true) (hp : isBatch p = true)
    (hrun : runIn w (run p) = (.ok (some total), w')) (hq : isBatch q = false)
    (hname : summaryName q = summaryName p) :
    runIn w' (run q) = (.ok (some total.asRead), w') ∧
      (total.asRead = total ↔ total.warnings < 1000 ∧ total.errors < 1000) := by
  refine ⟨?_, BatchCounts.asRead_eq_self_iff⟩
  obtain ⟨files, batches, u, v, hfiles, -, hbatches, -, hsummary⟩ := runIn_run_of_isBatch hp hrun
  have hsame : Session.SameFiles w v := Session.SameFiles.trans ((keeps_related p).of_eq_ok hfiles)
    ((Session.Keeps.filterMapM keeps_countsOf files).of_eq_ok hbatches)
  obtain ⟨rfl, v', hwrite, hafter⟩ := runIn_writeSummary hsummary
  obtain ⟨texts, hlines, hwrite⟩ := runIn_writeUntil_eq_ok.mp hwrite
  obtain ⟨hwritten, rest, htext⟩ := BatchCounts.text_of_summaryLines hlines
  have hcontent := content?_of_writeLines (.inr (hsame.store ▸ hsame.cwd ▸ hground)) hwrite
  rw [htext, hsame.date, hsame.time, ← hname, ← hafter.store, ← hafter.cwd] at hcontent
  rw [run_of_not_isBatch hq]
  exact runIn_earlier hcontent (BatchCounts.read_summary hstamp _ hwritten _)

def firstBatch : Text := "Files processed: 3\nTotal warnings: 1200\n"

def secondBatch : Text := "Files processed: 2\nTotal warnings: 300\n"

def twoBatches : Workspace where
  store := ⟨[([ofString "results.txt"], .file firstBatch (.ofInt 60)),
    ([ofString "results_pid7_batch1.txt"], .file secondBatch (.ofInt 60))]⟩
  cwd := []

theorem globIn_twoBatches :
    twoBatches.store.globIn twoBatches.cwd "." "results_pid*.txt" = [ofString "results_pid7_batch1.txt"] := by
  have hnames : twoBatches.store.namesIn twoBatches.cwd "." false =
      [ofString "results.txt", ofString "results_pid7_batch1.txt"] :=
    (namesIn_root _).trans (mergeSort_of_pairwise (by decide))
  rw [Store.globIn, hnames]
  decide +kernel

theorem related_twoBatches : runIn twoBatches (related "results_pid7_batch1.txt") =
      (.ok [ofString "results.txt", ofString "results_pid7_batch1.txt"], twoBatches) := by
  have hbase : baseName "results_pid7_batch1.txt" = "results" := by decide +kernel
  have hparent : FileName.parent "results_pid7_batch1.txt" = "." := by decide +kernel
  have hname : FileName.child "." (ofString "results" ++ ofString ".txt") = "results.txt" := by
    decide +kernel
  have hfirst : twoBatches.store.content? twoBatches.cwd "results.txt" = some firstBatch := by decide +kernel
  rw [related]
  simp only [hbase, hparent, hname]
  rw [runIn_bind_of_ok (runIn_checkedExists_of_content? hfirst),
    runIn_bind_of_ok (runIn_globIn _ (by decide +kernel))]
  have hpattern : ofString "results" ++ ofString "_pid*.txt" = "results_pid*.txt" := by decide +kernel
  rw [hpattern, globIn_twoBatches, runIn_pure, mergeSort_of_pairwise (by decide +kernel)]
  rfl

theorem run_after_summary_twoBatches :
    ∃ w', runIn twoBatches (run "results_pid7_batch1.txt") = (.ok (some ⟨5, 1500, 0, 0, 0⟩), w') ∧
      runIn w' (run "results.txt") = (.ok (some ⟨5, 1, 0, 0, 0⟩), w') := by
  have hrun : ∃ w', runIn twoBatches (run "results_pid7_batch1.txt") = (.ok (some ⟨5, 1500, 0, 0, 0⟩), w') := by
    have hbatch : isBatch "results_pid7_batch1.txt" = true := by decide +kernel
    rw [run, hbatch]
    simp only [Bool.not_true, Bool.false_eq_true, if_false]
    rw [runIn_bind_of_ok related_twoBatches, runIn_eq_ok_iff]
    decide +kernel
  obtain ⟨w', hrun⟩ := hrun
  have hread : (⟨5, 1500, 0, 0, 0⟩ : BatchCounts).asRead = ⟨5, 1, 0, 0, 0⟩ := by
    simp [BatchCounts.asRead, BatchCounts.leadingGroup]
  refine ⟨w', hrun, hread ▸ ?_⟩
  exact (run_after_summary (q := "results.txt") Store.isGrounded_root (by decide) (by decide +kernel) hrun
    (by decide +kernel) (by decide +kernel)).1

end Aggregate

end ViewLint
