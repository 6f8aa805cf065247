import ViewLint.Proofs.Files
import ViewLint.Proofs.Labels

/-!
# Results files that are read

A results file starts with the counts of its run, so they can be read from it whatever stands below them.

* **`RunResults.errors_of_read`**: the errors that are read from a results file are those of its run.
-/

namespace ViewLint.RunResults

open BatchCounts List

/-- The wordings at the top of a results file. -/
def wordings : List Text :=
  [Report.line "=", "IGNITION-LINT RESULTS", Report.line "=", "", "SUMMARY", Report.line "-", "Files processed: ",
    "Total warnings:  ", "Total errors:    ", "Files with issues: ", "Clean files:     "]

def figures (t : Totals) : List Text :=
  [[], [], [], [], [], [], intText t.processed, intText t.warnings, intText t.errors, intText t.withIssues,
    intText t.clean]

theorem isLabelAt_wordings :
    isLabelAt "Files processed:" wordings 6 = true ∧ isLabelAt "Total errors:" wordings 8 = true ∧
      ∀ w ∈ wordings, .char '\r' ∉ w := by
  decide +kernel

theorem isFigure_of_mem_figures (t : Totals) : ∀ f ∈ figures t, ∀ c ∈ f, isFigure c = true := by
  have hint (n : Int) : ∀ c ∈ intText n, isFigure c = true := fun _ => isFigure_of_mem_intText
  simp only [figures, forall_mem_cons, not_mem_nil, false_implies, implies_true, true_and, and_true]
  exact ⟨hint _, hint _, hint _, hint _, hint _⟩

theorem text_lines (r : RunResults) : ∃ rest, (r.lines.map (· ++ Text.ofString "\n")).flatten =
      figureLines (wordings.zip (figures r.totals)) ++ rest := by
  have hlines : ∃ rest, r.lines = ((wordings.zip (figures r.totals)).map fun l => l.1 ++ l.2) ++ rest := by
    simp only [lines, summaryLines, wordings, figures, zip_cons_cons, zip_nil_left, map_cons,
      map_nil, append_nil, flatten_cons, cons_append, nil_append, append_assoc]
    exact ⟨_, rfl⟩
  obtain ⟨rest, hlines⟩ := hlines
  exact ⟨_, by rw [hlines, figureLines_append]⟩

theorem errors_of_read {r : RunResults} (hprocessed : 0 ≤ r.totals.processed) (herrors : 0 ≤ r.totals.errors)
    {found : Option BatchCounts}
    (h : BatchCounts.read (Text.normalizeBreaks (r.lines.map (· ++ Text.ofString "\n")).flatten) = .ok found) :
    ∃ counts, found = some counts ∧ (counts.errors : Int) = r.totals.errors := by
  obtain ⟨files, hfiles⟩ := Int.eq_ofNat_of_zero_le hprocessed
  obtain ⟨errors, hcount⟩ := Int.eq_ofNat_of_zero_le herrors
  obtain ⟨rest, htext⟩ := r.text_lines
  obtain ⟨hfiles', herrors', hreturn⟩ := isLabelAt_wordings
  have hfigures := isFigure_of_mem_figures r.totals
  have hnumber {n : Int} {k : Nat} (hn : n = k) : some (intText n) = some (natText k ++ []) := by
    rw [hn, append_nil]
    rfl
  rw [htext, Text.normalizeBreaks_append (return_not_mem_figureLines hreturn hfigures)] at h
  obtain ⟨counts, hfound, hread⟩ := BatchCounts.errors_of_read
    (first?_of_isLabelAt hfiles' hfigures (hnumber hfiles) nofun _)
    (first?_of_isLabelAt herrors' hfigures (hnumber hcount) nofun _) h
  exact ⟨counts, hfound, by rw [hread, hcount]⟩

end ViewLint.RunResults
