import Mathlib.Algebra.BigOperators.Ring.Finset
import ViewLint.Proofs.ResultsFiles
import ViewLint.Proofs.Summaries

/-!
# Counts that add up

The counts of several runs are read from their results files by the labels there, added up, and written to a summary.

* **`RunResults.read_eq_ok_iff`**: the counts that are read from a results file are those of its run.
* `BatchCounts.isSumOf_iff`: the sums over several runs.
* **`BatchCounts.summaryLines_iff`**: when the lines of a summary can be written.
* `Session.exists_runIn_writeUntil_iff`: when a file takes lines.
-/

namespace ViewLint

open List Text BatchCounts

variable {name s text : Text} {found : Option BatchCounts} {t : BatchCounts}

/-! ## The counts of a results file -/

/-- Totals that count files and findings. -/
structure Totals.IsCount (t : Totals) : Prop where
  warnings : 0 ≤ t.warnings
  errors : 0 ≤ t.errors
  withIssues : 0 ≤ t.withIssues
  within : t.withIssues ≤ t.processed

namespace BatchCounts

theorem number?_eq_ok_iff {label : Text} {n : Nat} {found : Option Nat}
    (h : first? (digitsAfter? label) text = some (natText n)) :
    number? label text = .ok found ↔ found = some n ∧ n < Nat.pow 10 Json.digitLimit := by
  constructor
  · intro hfound
    refine ⟨eq_of_number? h hfound, (length_natDigits_le_iff (by decide)).mp ?_⟩
    rw [number?, h] at hfound
    dsimp only at hfound
    split at hfound
    · cases hfound
    · rename_i hlength
      exact Nat.le_of_not_lt hlength
  · rintro ⟨rfl, hn⟩
    exact number?_of_first? h hn

theorem read_eq_ok_iff (hfiles : first? (digitsAfter? "Files processed:") text = some (natText t.files))
    (hwarnings : first? (digitsAfter? "Total warnings:") text = some (natText t.warnings))
    (herrors : first? (digitsAfter? "Total errors:") text = some (natText t.errors))
    (hissues : first? (digitsAfter? "Files with issues:") text = some (natText t.issues))
    (hclean : first? (digitsAfter? "Clean files:") text = some (natText t.clean)) :
    read text = .ok found ↔ found = some t ∧ t.IsWritten := by
  have hnumber {label : Text} {n m : Nat} (h : first? (digitsAfter? label) text = some (natText n))
      (hm : number label text = .ok m) : m = n ∧ n < Nat.pow 10 Json.digitLimit := by
    obtain ⟨k, hk, hm⟩ := bind_eq_ok.mp hm
    obtain ⟨rfl, hn⟩ := (number?_eq_ok_iff h).mp hk
    cases hm
    exact ⟨rfl, hn⟩
  constructor
  · intro h
    obtain ⟨files, hfiles', h⟩ := bind_eq_ok.mp h
    obtain ⟨rfl, hfiles⟩ := (number?_eq_ok_iff hfiles).mp hfiles'
    obtain ⟨warnings, hwarnings', h⟩ := bind_eq_ok.mp h
    obtain ⟨errors, herrors', h⟩ := bind_eq_ok.mp h
    obtain ⟨issues, hissues', h⟩ := bind_eq_ok.mp h
    obtain ⟨clean, hclean', h⟩ := bind_eq_ok.mp h
    obtain ⟨rfl, hwarnings⟩ := hnumber hwarnings hwarnings'
    obtain ⟨rfl, herrors⟩ := hnumber herrors herrors'
    obtain ⟨rfl, hissues⟩ := hnumber hissues hissues'
    obtain ⟨rfl, hclean⟩ := hnumber hclean hclean'
    cases h
    refine ⟨rfl, ?_⟩
    simp only [IsWritten, forall_mem_cons]
    exact ⟨hfiles, hwarnings, herrors, hissues, hclean, forall_mem_nil _⟩
  · rintro ⟨rfl, ht⟩
    simp only [IsWritten, forall_mem_cons] at ht
    obtain ⟨hfiles', hwarnings', herrors', hissues', hclean', -⟩ := ht
    exact read_of_number? (number?_of_first? hfiles hfiles') (number?_of_first? hwarnings hwarnings')
      (number?_of_first? herrors herrors') (number?_of_first? hissues hissues') (number?_of_first? hclean hclean')

end BatchCounts

namespace RunResults

open BatchCounts

def counts (r : RunResults) : BatchCounts :=
  ⟨r.totals.processed.toNat, r.totals.warnings.toNat, r.totals.errors.toNat, r.totals.withIssues.toNat,
    r.totals.clean.toNat⟩

theorem isLabelAt_further_wordings :
    isLabelAt "Total warnings:" wordings 7 = true ∧ isLabelAt "Files with issues:" wordings 9 = true ∧
      isLabelAt "Clean files:" wordings 10 = true := by
  decide +kernel

theorem read_eq_ok_iff {r : RunResults} (hr : r.totals.IsCount) :
    BatchCounts.read (Text.normalizeBreaks (Report.ofLines r.lines)) = .ok found ↔
      found = some r.counts ∧ r.counts.IsWritten := by
  obtain ⟨rest, htext⟩ := r.text_lines
  obtain ⟨hfiles, herrors, hreturn⟩ := isLabelAt_wordings
  obtain ⟨hwarnings, hissues, hclean⟩ := isLabelAt_further_wordings
  have hfigures := isFigure_of_mem_figures r.totals
  have hnumber {n : Int} (hn : 0 ≤ n) : some (intText n) = some (natText n.toNat ++ []) := by
    obtain ⟨k, rfl⟩ := Int.eq_ofNat_of_zero_le hn
    rw [append_nil]
    rfl
  have hprocessed : 0 ≤ r.totals.processed := hr.withIssues.trans hr.within
  rw [Report.ofLines, htext, Text.normalizeBreaks_append (return_not_mem_figureLines hreturn hfigures)]
  exact BatchCounts.read_eq_ok_iff (first?_of_isLabelAt hfiles hfigures (hnumber hprocessed) nofun _)
    (first?_of_isLabelAt hwarnings hfigures (hnumber hr.warnings) nofun _)
    (first?_of_isLabelAt herrors hfigures (hnumber hr.errors) nofun _)
    (first?_of_isLabelAt hissues hfigures (hnumber hr.withIssues) nofun _)
    (first?_of_isLabelAt hclean hfigures (hnumber (Int.sub_nonneg_of_le hr.within)) nofun _)

end RunResults

/-! ## Sums -/

namespace BatchCounts

theorem sum_eq (batches : List BatchCounts) : sum batches =
    ⟨(batches.map files).sum, (batches.map warnings).sum, (batches.map errors).sum, (batches.map issues).sum,
      (batches.map clean).sum⟩ := by
  have hfold (start : BatchCounts) : batches.foldl add start = add start
      ⟨(batches.map files).sum, (batches.map warnings).sum, (batches.map errors).sum, (batches.map issues).sum,
        (batches.map clean).sum⟩ := by
    induction batches generalizing start with
    | nil => rfl
    | cons b batches ih => simp only [foldl_cons, ih, add, map_cons, sum_cons, Nat.add_assoc]
  rw [sum, hfold]
  simp [add]

instance : RightCommutative add where
  right_comm a b c := by simp only [add, Nat.add_right_comm]

theorem IsWritten.of_mem {b : BatchCounts} {batches : List BatchCounts} (h : (sum batches).IsWritten)
    (hb : b ∈ batches) : b.IsWritten := by
  have hle {f : BatchCounts → Nat} (hf : (batches.map f).sum < Nat.pow 10 Json.digitLimit) :
      f b < Nat.pow 10 Json.digitLimit := Nat.lt_of_le_of_lt (le_sum_of_mem (mem_map_of_mem hb)) hf
  simp only [IsWritten, sum_eq, forall_mem_cons] at h ⊢
  obtain ⟨hfiles, hwarnings, herrors, hissues, hclean, -⟩ := h
  exact ⟨hle hfiles, hle hwarnings, hle herrors, hle hissues, hle hclean, forall_mem_nil _⟩

/-- Counts that are the sums over several runs. -/
structure IsSumOf (t : BatchCounts) (runs : List RunResults) : Prop where
  files : (t.files : Int) = (runs.map fun r => r.totals.processed).sum
  warnings : (t.warnings : Int) = (runs.map fun r => r.totals.warnings).sum
  errors : (t.errors : Int) = (runs.map fun r => r.totals.errors).sum
  issues : (t.issues : Int) = (runs.map fun r => r.totals.withIssues).sum
  clean : (t.clean : Int) = (runs.map fun r => r.totals.processed - r.totals.withIssues).sum

theorem isSumOf_iff {runs : List RunResults} (h : ∀ r ∈ runs, r.totals.IsCount) :
    t.IsSumOf runs ↔ t = sum (runs.map RunResults.counts) := by
  have hfield {n : Nat} (f : BatchCounts → Nat) {g : RunResults → Int} (hfg : ∀ r : RunResults, f r.counts = (g r).toNat)
      (hg : ∀ r ∈ runs, 0 ≤ g r) : n = ((runs.map RunResults.counts).map f).sum ↔ (n : Int) = (runs.map g).sum := by
    rw [← Int.natCast_inj, map_map, Nat.cast_list_sum, map_map]
    refine iff_of_eq (congrArg _ (congrArg List.sum (map_congr_left fun r hr => ?_)))
    rw [Function.comp_apply, Function.comp_apply, hfg]
    exact Int.toNat_of_nonneg (hg r hr)
  cases t
  rw [sum_eq, mk.injEq, hfield files (fun _ => rfl) fun r hr => (h r hr).withIssues.trans (h r hr).within,
    hfield warnings (fun _ => rfl) fun r hr => (h r hr).warnings,
    hfield errors (fun _ => rfl) fun r hr => (h r hr).errors,
    hfield issues (fun _ => rfl) fun r hr => (h r hr).withIssues,
    hfield clean (fun _ => rfl) fun r hr => Int.sub_nonneg_of_le (h r hr).within]
  constructor
  all_goals
    rintro ⟨hfiles, hwarnings, herrors, hissues, hclean⟩
    exact ⟨hfiles, hwarnings, herrors, hissues, hclean⟩

end BatchCounts

/-! ## Summaries that can be written -/

namespace Text

theorem isEncodable_append (s t : Text) : isEncodable (s ++ t) = (isEncodable s && isEncodable t) := all_append

theorem isEncodable_ofString (s : String) : isEncodable (ofString s) = true := by
  rw [isEncodable, ofString, all_map, all_eq_true]
  exact fun _ _ => rfl

theorem isEncodable_of_isFigure (h : ∀ c ∈ s, isFigure c = true) : isEncodable s = true := by
  rw [isEncodable, all_eq_true]
  intro c hc
  cases c with
  | char ch => rfl
  | half k =>
    obtain hdigit | hsign := Bool.or_eq_true_iff.mp (h _ hc)
    · have hsmall := of_decide_eq_true (Bool.and_eq_true_iff.mp hdigit).2
      rw [CodePoint.toNat] at hsmall
      omega
    · simp [ofString] at hsign

theorem isEncodable_natText (n : Nat) : isEncodable (natText n) = true :=
  isEncodable_of_isFigure fun _ => isFigure_of_mem_natText

theorem isEncodable_padStart (width n : Nat) : isEncodable (padStart width (natText n)) = true := by
  rw [padStart, isEncodable_append, isEncodable_natText, Bool.and_true, isEncodable, all_eq_true]
  exact fun c hc => eq_of_mem_replicate hc ▸ rfl

theorem isEncodable_padEnd (width : Nat) (s : Text) : isEncodable (padEnd width s) = isEncodable s := by
  have hblanks : isEncodable (replicate (width - s.length) (.char ' ')) = true := by
    rw [isEncodable, all_eq_true]
    exact fun c hc => eq_of_mem_replicate hc ▸ rfl
  rw [padEnd, isEncodable_append, hblanks, Bool.and_true]

theorem isEncodable_repeated (n : Nat) (s : String) : isEncodable (repeated n (ofString s)) = true := by
  rw [isEncodable, all_eq_true]
  intro c hc
  obtain ⟨piece, hpiece, hc⟩ := mem_flatten.mp hc
  rw [eq_of_mem_replicate hpiece] at hc
  exact all_eq_true.mp (isEncodable_ofString s) c hc

theorem isEncodable_iff_halves? : isEncodable s = true ↔ halves? s = none := by
  refine ⟨fun h => halfRun?_eq_none_iff.mpr fun c hc => ?_, isEncodable_of_halves?⟩
  rw [all_eq_true.mp h c hc]
  rfl

end Text

namespace BatchCounts

theorem isEncodable_line (name : Text) (c : BatchCounts) : isEncodable (line name c) = isEncodable name := by
  simp only [line, isEncodable_append, isEncodable_ofString, isEncodable_padStart, isEncodable_padEnd, Bool.and_true]

theorem totalLines_of_isWritten (h : t.IsWritten) :
    ∀ l ∈ totalLines t, ∃ text, l = .ok text ∧ isEncodable text = true := by
  simp only [IsWritten, forall_mem_cons] at h
  obtain ⟨hfiles, hwarnings, herrors, hissues, hclean, -⟩ := h
  have hwritten {n : Nat} (hn : n < Nat.pow 10 Json.digitLimit) : writtenInt n = .ok (natText n) := by
    rw [writtenInt, Int.natAbs_natCast, if_neg (Nat.not_le.mpr hn)]
    rfl
  have hgrouped (n : Nat) : isEncodable (grouped n) = true := by
    obtain ⟨tail, hgrouped, -, htail⟩ := grouped_eq n
    rw [hgrouped, isEncodable_append, isEncodable_natText, isEncodable_of_isFigure htail]
    rfl
  simp only [totalLines, forall_mem_cons, hwritten hfiles, hwritten hwarnings, hwritten herrors, hwritten hissues,
    hwritten hclean]
  refine ⟨⟨_, rfl, ?_⟩, ⟨_, rfl, ?_⟩, ⟨_, rfl, ?_⟩, ⟨_, rfl, ?_⟩, ⟨_, rfl, ?_⟩, forall_mem_nil _⟩ <;>
    simp only [isEncodable_append, isEncodable_ofString, isEncodable_natText, hgrouped, Bool.and_true]

/-- **The lines of a summary can be written** exactly if its counts and the names of its files can. -/
theorem summaryLines_iff {stamp : Text} (hstamp : isEncodable stamp = true)
    {batches : List (Text × BatchCounts)} :
    (∃ texts : List Text, summaryLines stamp batches = texts.map .ok ∧ ∀ t ∈ texts, isEncodable t = true) ↔
      (sum (batches.map (·.2))).IsWritten ∧ ∀ b ∈ batches, isEncodable b.1 = true := by
  constructor
  · rintro ⟨texts, hlines, htexts⟩
    refine ⟨(text_of_summaryLines hlines).1, fun b hb => ?_⟩
    have hmem : .ok (line b.1 b.2) ∈ summaryLines stamp batches := by
      simp only [summaryLines, flatten_cons, flatten_nil, append_nil, map_append, map_map, mem_append]
      exact .inr (.inr (.inr (.inl (mem_map.mpr ⟨b, hb, rfl⟩))))
    rw [hlines] at hmem
    obtain ⟨text, htext, heq⟩ := mem_map.mp hmem
    have hline := htexts text htext
    rwa [Except.ok.inj heq, isEncodable_line] at hline
  · rintro ⟨hsum, hnames⟩
    have hall : ∀ l ∈ summaryLines stamp batches, ∃ text, l = .ok text ∧ isEncodable text = true := by
      have hok {texts : List Text} (h : ∀ t ∈ texts, isEncodable t = true) (l : Except Fault Text)
          (hl : l ∈ texts.map .ok) : ∃ text, l = .ok text ∧ isEncodable text = true := by
        obtain ⟨t, ht, rfl⟩ := mem_map.mp hl
        exact ⟨t, rfl, h t ht⟩
      rw [summaryLines, flatten_cons, flatten_cons, flatten_cons, flatten_nil, append_nil,
        forall_mem_append, forall_mem_append]
      refine ⟨hok ?_, totalLines_of_isWritten hsum, hok ?_⟩
      · simp only [forall_mem_cons, isEncodable_append, isEncodable_ofString, isEncodable_repeated,
          isEncodable_natText, hstamp, Bool.and_true, true_and]
        exact forall_mem_nil _
      · simp only [flatten_cons, flatten_nil, append_nil, forall_mem_append, forall_mem_cons,
          isEncodable_ofString, isEncodable_repeated, true_and]
        refine ⟨forall_mem_nil _, fun text htext => ?_, forall_mem_nil _⟩
        obtain ⟨b, hb, rfl⟩ := mem_map.mp htext
        rw [isEncodable_line]
        exact hnames b hb
    generalize summaryLines stamp batches = lines at hall
    induction lines with
    | nil => exact ⟨[], rfl, forall_mem_nil _⟩
    | cons l lines ih =>
      obtain ⟨⟨text, rfl, htext⟩, hrest⟩ := forall_mem_cons.mp hall
      obtain ⟨texts, rfl, htexts⟩ := ih hrest
      exact ⟨text :: texts, rfl, forall_mem_cons.mpr ⟨htext, htexts⟩⟩

end BatchCounts

/-- Whether a file can be written under a name. -/
def Store.IsWritable (s : Store) (cwd : Place) (name : Text) : Prop :=
  checkName name = .ok () ∧ ∃ p e, s.locate cwd true name = .ok (p, e) ∧ ∀ age, e ≠ some (.directory age)

theorem Store.write_eq_ok_iff {s : Store} {cwd : Place} {pieces : List Text} :
    (s.write cwd name pieces).2 = .ok () ↔
      s.IsWritable cwd name ∧ ∀ piece ∈ pieces, isEncodable piece = true := by
  have hpieces : pieces.findSome? halves? = none ↔ ∀ piece ∈ pieces, isEncodable piece = true := by
    simp only [findSome?_eq_none_iff, isEncodable_iff_halves?]
  rw [IsWritable, ← hpieces, write]
  cases checkName name with
  | error f => simp
  | ok u =>
    rcases s.locate cwd true name with t | ⟨p, _ | (⟨text, age⟩ | ⟨age⟩ | ⟨target⟩)⟩ <;>
      cases pieces.findSome? halves? <;> simp

theorem Session.exists_runIn_writeUntil_iff {w : Workspace} {lines : List (Except Fault Text)} :
    (∃ v, runIn w (writeUntil name lines) = (.ok (), v)) ↔
      (∃ texts : List Text, lines = texts.map .ok ∧ ∀ t ∈ texts, isEncodable t = true) ∧
        w.store.IsWritable w.cwd name := by
  have hbreaks (texts : List Text) : (∀ piece ∈ texts.map (· ++ ofString "\n"), isEncodable piece = true) ↔
      ∀ t ∈ texts, isEncodable t = true := by
    simp only [forall_mem_map, isEncodable_append, isEncodable_ofString, Bool.and_true]
  simp only [runIn_writeUntil_eq_ok, runIn_writeLines, runIn_writePieces_eq_ok, Store.write_eq_ok_iff, hbreaks]
  constructor
  · rintro ⟨v, texts, hlines, ⟨hname, htexts⟩, -⟩
    exact ⟨⟨texts, hlines, htexts⟩, hname⟩
  · rintro ⟨⟨texts, hlines, htexts⟩, hname⟩
    exact ⟨_, texts, hlines, ⟨hname, htexts⟩, rfl⟩

end ViewLint
