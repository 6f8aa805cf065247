import Mathlib
import ViewLint.Proofs.ComponentFix
import ViewLint.Proofs.Relative
import ViewLint.Proofs.Replace
import ViewLint.Proofs.Steps

/-!
# References after a renaming

A renaming exchanges the old name wherever it occurs in a string, while the references to the renamed
component are whole steps of relative references.

* `Reference.renamed`: a string with the steps that are the old name exchanged.
* **`Reference.exchanges_renamed`**: when the exchange renames the references and nothing else.
* **`NamePattern.Config.replaces_only_references_iff`**: the same for the operations of every fix of the rule.
-/

namespace ViewLint

open List CodePoint

namespace Reference

/-! ## Strings with their references renamed -/

/-- Whether a character parts the steps of a reference. -/
def isSeparator (c : CodePoint) : Bool := c == '.' || c == '/'

def renameStep (old new step : Text) : Text := if step = old then new else step

/-- The steps of a reference after a renaming, where the characters of `step` have been read before. -/
def renameStepsFrom (old new : Text) : Text → Text → Text
  | step, [] => renameStep old new step
  | step, c :: r =>
    if isSeparator c then renameStep old new step ++ c :: renameStepsFrom old new [] r
    else renameStepsFrom old new (step ++ [c]) r

/-- The steps of a reference after a renaming; points and slashes stay. -/
def renameSteps (old new s : Text) : Text := renameStepsFrom old new [] s

/-- An expression after a renaming, the first `skip` characters left out. -/
def renameBracedFrom (old new : Text) : Nat → Text → Text
  | _, [] => []
  | skip + 1, _ :: r => renameBracedFrom old new skip r
  | 0, c :: r =>
    match braced? (c :: r) with
    | some ((count, inner), used) =>
      CodePoint.char '\x7b' :: (dotsText count ++ (renameSteps old new inner ++
        CodePoint.char '\x7d' :: renameBracedFrom old new (used - 1) r))
    | none => c :: renameBracedFrom old new 0 r

/-- A string after a renaming: the steps of its references that are the old name are exchanged, and
nothing else is. -/
def renamed (old new s : Text) : ReferenceKind → Text
  | .expression => renameBracedFrom old new 0 s
  | .propertyBinding =>
    match relative? s with
    | some (count, line) =>
      dotsText count ++ (renameSteps old new line ++ s.drop (count + 1 + line.length))
    | none => s
  | .script => s

/-- The number of steps in the references of a string that are a name. -/
def mentions (name s : Text) : ReferenceKind → Nat
  | .expression => ((Text.scan braced? s).map fun r => (steps r.2).count name).sum
  | .propertyBinding => ((relative? s).map fun r => (steps r.2).count name).getD 0
  | .script => 0

/-! ## The exchange of a name -/

theorem renameBracedFrom_eq_drop (old new : Text) (skip : Nat) (s : Text) :
    renameBracedFrom old new skip s = renameBracedFrom old new 0 (s.drop skip) := by
  induction s generalizing skip with
  | nil => simp [renameBracedFrom]
  | cons c r ih =>
    cases skip with
    | zero => rfl
    | succ skip => exact ih skip

section Exchange

open Text

variable {kind : ReferenceKind} {old new s : Text} (hold : old ≠ []) (hne : old ≠ new)
  (hsep : ∀ x ∈ old, isSeparator x = false)

include hold hne

theorem exchanges_renameStep (step : Text) : Exchanges old new step (renameStep old new step) ([step].count old) := by
  by_cases h : step = old
  · subst h
    simpa [renameStep] using Exchanges.whole hold
  · simpa [renameStep, h] using Exchanges.refl hold hne step

include hsep

theorem exchanges_renameStepsFrom {step : Text} (hstep : ∀ x ∈ step, isSeparator x = false) (s : Text) :
    Exchanges old new (step ++ s) (renameStepsFrom old new step s) ((steps (step ++ s)).count old) := by
  induction s generalizing step with
  | nil =>
    have hsteps : steps step = [step] := splitWhere_of_forall hstep
    rw [append_nil, renameStepsFrom, hsteps]
    exact exchanges_renameStep hold hne step
  | cons c r ih =>
    rw [renameStepsFrom]
    split
    · next hc =>
      have hsteps : steps (step ++ c :: r) = [step] ++ steps r := splitWhere_append_cons r hstep hc
      have hold' : c ∉ old := fun hmem => by simp [hsep c hmem] at hc
      rw [hsteps, count_append]
      exact (exchanges_renameStep hold hne step).append_cons hold hold' (ih fun _ h => absurd h not_mem_nil)
    · next hc =>
      have hstep' : ∀ x ∈ step ++ [c], isSeparator x = false := by
        intro x hx
        rcases mem_append.mp hx with hx | hx
        · exact hstep x hx
        · rw [mem_singleton.mp hx]
          simpa using hc
      simpa using ih hstep'

/-- The steps that are `old` are occurrences of it. -/
theorem exchanges_renameSteps (s : Text) : Exchanges old new s (renameSteps old new s) ((steps s).count old) :=
  exchanges_renameStepsFrom hold hne hsep (fun _ h => absurd h not_mem_nil) s

theorem exchanges_dotsText (front : Text) (count : Nat) {t : Text} {n : Nat} (h : Exchanges old new s t n) :
    Exchanges old new (front ++ (dotsText count ++ s)) (front ++ (dotsText count ++ t)) n := by
  have hslash : .char '/' ∉ old := fun hmem => absurd (hsep _ hmem) (by decide)
  have hsplit : ∀ u, front ++ (dotsText count ++ u) =
      (front ++ replicate count (char '.')) ++ char '/' :: u := by simp [dotsText]
  rw [hsplit, hsplit, ← Nat.zero_add n]
  exact (Exchanges.refl hold hne _).append_cons hold hslash h

theorem exchanges_renameBraced (hclose : .char '\x7d' ∉ old) (front s : Text) :
    Exchanges old new (front ++ s) (front ++ renameBracedFrom old new 0 s) (mentions old s .expression) := by
  -- `front` is what has been read since the last reference
  induction h : s.length using Nat.strongRecOn generalizing s front with
  | ind n ih =>
    subst h
    cases s with
    | nil => simpa [renameBracedFrom, mentions, scan, scanFrom] using Exchanges.refl hold hne front
    | cons c r =>
      rw [renameBracedFrom]
      cases hb : braced? (c :: r) with
      | none =>
        have hmentions : mentions old (c :: r) .expression = mentions old r .expression := by
          rw [mentions, mentions, scan_of_none hb]
        rw [hmentions]
        simpa using ih r.length (by simp) (front ++ [c]) r rfl
      | some p =>
        obtain ⟨⟨count, inner⟩, used⟩ := p
        obtain ⟨-, -, -, hused, after, hs⟩ := braced?_eq_some_iff.mp hb
        have hdrop : (c :: r).drop used = after := by
          have hlen : used = (char '\x7b' :: (dotsText count ++ (inner ++ [.char '\x7d']))).length := by
            simp
            omega
          have hsplit : char '\x7b' :: (dotsText count ++ (inner ++ .char '\x7d' :: after)) =
              (char '\x7b' :: (dotsText count ++ (inner ++ [.char '\x7d']))) ++ after := by simp
          rw [hs, hsplit, hlen, drop_left]
        have hmentions : mentions old (c :: r) .expression =
            (steps inner).count old + mentions old after .expression := by
          rw [mentions, mentions, scan_of_braced? hb, hdrop]
          simp
        have hrest : renameBracedFrom old new (used - 1) r = renameBracedFrom old new 0 after := by
          obtain ⟨k, rfl⟩ : ∃ k, used = k + 1 := ⟨count + 2 + inner.length, by omega⟩
          rw [Nat.add_sub_cancel, renameBracedFrom_eq_drop]
          exact congrArg _ hdrop
        have hafter : Exchanges old new after (renameBracedFrom old new 0 after) (mentions old after .expression) :=
          ih after.length (by rw [hs]; simp; omega) [] after rfl
        have hinner := (exchanges_renameSteps hold hne hsep inner).append_cons hold hclose hafter
        have hwhole := exchanges_dotsText hold hne hsep (front ++ [.char '\x7b']) count hinner
        simp only [hmentions, hrest]
        rw [hs]
        simpa using hwhole

theorem exchanges_renamed_relative (hline : .char '\n' ∉ old) (s : Text) :
    Exchanges old new s (renamed old new s .propertyBinding) (mentions old s .propertyBinding) := by
  rw [renamed, mentions]
  cases hr : relative? s with
  | none => exact Exchanges.refl hold hne s
  | some p =>
    obtain ⟨count, line⟩ := p
    obtain ⟨-, -, -, ends, hends, rfl⟩ := relative?_eq_some_iff.mp hr
    have hdrop : (dotsText count ++ (line ++ ends)).drop (count + 1 + line.length) = ends := by
      rw [← length_dotsText, drop_length_add_append, drop_left]
    have hsteps := exchanges_renameSteps hold hne hsep line
    have hends : Exchanges old new (line ++ ends) (renameSteps old new line ++ ends) ((steps line).count old) := by
      rcases hends with rfl | rfl
      · simpa using hsteps
      · exact hsteps.append_cons hold hline (Exchanges.refl hold hne [])
    simp only [hdrop, Option.map_some, Option.getD_some]
    exact exchanges_dotsText hold hne hsep [] count hends

omit hsep

/-- The references of a string are rewritten where they stand. -/
theorem exchanges_renamed (hkind : kindIn? s old = some kind)
    (hscript : kind ≠ .script) : Exchanges old new s (renamed old new s kind) (mentions old s kind) := by
  have hchars {inner : Text} (h : (steps inner).contains old = true) : ∀ x ∈ old, x ∈ inner ∧ isSeparator x = false :=
    fun x => mem_of_mem_splitWhere (contains_iff_mem.mp h)
  rw [kindIn?] at hkind
  repeat' split at hkind
  all_goals cases hkind
  · next hin =>
    rw [inExpression_eq, any_eq_true] at hin
    obtain ⟨r, hr, hmem⟩ := hin
    obtain ⟨t, used, -, hb⟩ := exists_of_mem_scan hr
    obtain ⟨-, -, hclose, -⟩ := braced?_eq_some_iff.mp hb
    have hold' := hchars hmem
    exact exchanges_renameBraced hold hne (fun x hx => (hold' x hx).2) (fun hx => hclose (hold' _ hx).1) [] s
  · next hin =>
    rw [inRelativePath_eq, Option.any_eq_true] at hin
    obtain ⟨r, hr, hmem⟩ := hin
    obtain ⟨-, -, hline, -⟩ := relative?_eq_some_iff.mp hr
    have hold' := hchars hmem
    exact exchanges_renamed_relative hold hne (fun x hx => (hold' x hx).2) (fun hx => hline (hold' _ hx).1) s
  · exact absurd rfl hscript

end Exchange

/-! ## The operations of a fix -/

theorem of_mem_find {flat : Flat} {locator : Locator} {name : Json} {refs : List Reference}
    (h : find flat locator name = .ok refs) {r : Reference} (hr : r ∈ refs) :
    r.place ≠ [] ∧ ∃ old, name = .str old ∧ kindIn? r.context old = some r.kind ∧
      ∃ path, (path, .str r.context) ∈ flat ∧ locator.place? (.str path) = some r.place := by
  obtain ⟨⟨path, v⟩, hmem, hfound⟩ := mem_of_filterMapM_ok h hr
  unfold inString? at hfound
  split at hfound
  · next value old hv =>
    rw [Except.ok.injEq, Option.bind_eq_some_iff] at hfound
    obtain ⟨kind, hkind, hfound⟩ := hfound
    split at hfound
    · next step rest hplace =>
      cases hfound
      cases hv
      exact ⟨by simp, old, rfl, hkind, path, hmem, hplace⟩
    · cases hfound
  · cases hfound
  · cases hfound

end Reference

namespace Fix

theorem applyOperation_replace {doc : Json} {op : Operation} {old new s : Text} (hold : old ≠ [])
    (hop : op.change = .replace (.str old) (.str new)) (hpath : op.path ≠ [])
    (hs : doc.getAt op.path = .ok (.str s)) :
    ∃ next, applyOperation doc op = .ok next ∧ next.getAt op.path = .ok (.str (Text.replace old new s)) := by
  simp only [applyOperation, hop, Json.replaceAt?, hs, Json.exchange?, bind, Except.bind]
  by_cases hholds : Text.holds s old = true
  · obtain ⟨next, hset, hleads⟩ := Json.put_of_follow hs hpath (.str (Text.replace old new s))
    refine ⟨next, ?_, hleads.getAt⟩
    simp [hholds, Json.setAt, hset, pure, Except.pure]
  · rw [Bool.not_eq_true] at hholds
    refine ⟨doc, ?_, ?_⟩
    · simp [hholds, pure, Except.pure]
    · rw [Text.replace_of_occurrences_eq_zero hold (Text.occurrences_of_not_holds hholds)]
      exact hs

end Fix

namespace NamePattern.Config

/-- **A renaming changes the references to the renamed component and nothing else exactly if** its old
name occurs in the rewritten string only as a step of these references. -/
theorem replaces_only_references_iff {c : Config} {context : FixContext} {nodes : List Node}
    {findings : List Finding} {fixes : List Fix} (h : c.check (some context) nodes = .ok (findings, fixes))
    {fix : Fix} (hfix : fix ∈ fixes) {op : Operation} (hop : op ∈ fix.operations) {old new : Json}
    (hchange : op.change = .replace old new) :
    ∃ (oldName newName : Text) (r : Reference), old = .str oldName ∧ new = .str newName ∧
      r.place = op.path ∧ Reference.kindIn? r.context oldName = some r.kind ∧
      (∃ path, (path, .str r.context) ∈ context.flat ∧ context.locator.place? (.str path) = some r.place) ∧
      ∀ doc s kind, doc.getAt op.path = .ok (.str s) → Reference.kindIn? s oldName = some kind → kind ≠ .script →
        ∃ next t, Fix.applyOperation doc op = .ok next ∧ next.getAt op.path = .ok (.str t) ∧
          (t = Reference.renamed oldName newName s kind ↔
            Text.occurrences oldName s = Reference.mentions oldName s kind) := by
  obtain ⟨n, -, hmade⟩ := madeFor_of_check h hfix
  obtain ⟨newName, refs, -, hrenames⟩ := hmade.renamesTo
  have hname := hmade.isTrue
  obtain ⟨place, description, -, hops⟩ := hrenames.operations_eq
  rw [hops] at hop
  rcases mem_cons.mp hop with rfl | hop
  · cases hchange
  · obtain ⟨r, hr, rfl⟩ := mem_map.mp hop
    cases hchange
    obtain ⟨hplace, oldName, hold, hkind, hfound⟩ := Reference.of_mem_find hrenames.find_eq hr
    have hne := hrenames.old_ne
    rw [hold] at hname hne ⊢
    have hne : oldName ≠ newName := by simpa [Json.equals] using hne
    have hold : oldName ≠ [] := by simpa [Json.isTrue] using hname
    refine ⟨oldName, newName, r, rfl, rfl, rfl, hkind, hfound, ?_⟩
    intro doc s kind hs hs' hscript
    obtain ⟨next, hnext, hget⟩ := Fix.applyOperation_replace hold rfl hplace hs
    exact ⟨next, _, hnext, hget, (Reference.exchanges_renamed hold hne hs' hscript).replace_eq_iff⟩

def capitals : Config where
  scope := { targets := .kinds [.component], severity := .warning }
  convention := .str "PascalCase"
  pattern := .str "^[A-Z]"
  description := "PascalCase"

/-- An expression about the component `a`, with the name also inside the word for its property. -/
def alarm : Text := "\x7b../a.props.alarm\x7d"

/-- What a view offers in which the expression is a member of another component. -/
def alarmContext : FixContext where
  flat := [("b.x", .str alarm)]
  locator := { places := [(.str "b.x", [.str "x"])], names := [(.str "a", [.str "meta", .str "name"])] }

def alarmNode : Node := ⟨"a", .component (.str "a") .null .null⟩

def alarmFix : Fix where
  rule := .str "NamePatternRule"
  violation := "a: Name 'a' doesn't follow PascalCase for component (suggestion: 'A')"
  description := "Rename component 'a' to 'A'"
  operations :=
    [⟨[.str "meta", .str "name"], .set (.str "a") (.str "A"), "Rename component 'a' to 'A'"⟩,
      ⟨[.str "x"], .replace (.str "a") (.str "A"), "Update expression reference: 'a' -> 'A'"⟩]
  safe := false
  notes := .str "updates 1 reference(s)"

theorem replaces_only_references_iff_alarm :
    ∃ findings next t, capitals.check (some alarmContext) [alarmNode] = .ok (findings, [alarmFix]) ∧
      Fix.applyOperation (.object [("x", .str alarm)])
        ⟨[.str "x"], .replace (.str "a") (.str "A"), "Update expression reference: 'a' -> 'A'"⟩ = .ok next ∧
      next.getAt [.str "x"] = .ok (.str t) ∧
      (t = Reference.renamed "a" "A" alarm .expression ↔
        Text.occurrences "a" alarm = Reference.mentions "a" alarm .expression) := by
  have hcheck : capitals.check (some alarmContext) [alarmNode] =
      .ok ([⟨.warning, alarmFix.violation⟩], [alarmFix]) := by
    set_option maxRecDepth 2000 in cbv
  obtain ⟨o, n, r, ho, hn, -, -, -, h⟩ := replaces_only_references_iff hcheck mem_cons_self
    (mem_cons_of_mem _ mem_cons_self) rfl
  cases ho
  cases hn
  obtain ⟨next, t, h⟩ := h (.object [("x", .str alarm)]) alarm .expression rfl (by decide +kernel) (by decide)
  exact ⟨_, next, t, hcheck, h⟩

/-- The exchange reaches the property of the renamed component, too. -/
theorem replace_ne_renamed_alarm : Text.replace "a" "A" alarm = "\x7b../A.props.AlArm\x7d" ∧
      Reference.renamed "a" "A" alarm .expression = "\x7b../A.props.alarm\x7d" := by
  decide +kernel

end NamePattern.Config

end ViewLint
