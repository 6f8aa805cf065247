import ViewLint.Proofs.ExitCodes
import ViewLint.Proofs.Lockstep

/-!
# Runs in which violations are altered

The script checker may be asked in another way at the end of a run. If the violations keep their categories, nothing
changes but the violations themselves and the forms that rules put them into.

* `ScriptCheck.Config.askAltered`: the way of asking that alters violations as they are read.
* **`Run.found_lockstep`**, `Run.lint_eq_lintWith`: the run up to its results file, and the whole run without one.
-/

namespace ViewLint

open List Session Rule ScriptCheck

namespace ScriptCheck

/-! ## Another way of asking -/

/-- How the script checker is asked about scripts. -/
abbrev Asking := Config → List (Text × Script) → Session (List Violation)

namespace Config

/-- Asks the script checker as `ask` does, and alters each violation as soon as it is read. -/
def askAltered (alter : Violation → Violation) : Asking := fun c scripts => do
  let (text, owners) ← lift (combine scripts)
  match text.halves? with
  | some run => fail (.unencodable run)
  | none => pure ()
  let keys := scripts.map (·.1)
  let name ← draftName
  let call : CheckerCall := ⟨c.arguments (FileName.join (← get).tempDirectory name), text⟩
  let failure (complaint : Text) : Session (List Violation × Bool) := do
    if c.debug then printLine ("⚠️  Pylint error: " ++ complaint)
    return ([], true)
  let (violations, hasIssues) ← do
    match ← attempt (askChecker call) with
    | .ok output =>
      let violations := (← c.readOutput owners keys output).map alter
      pure (violations, !violations.isEmpty)
    | .error (.storage e) =>
      failure ("Error with file operations during pylint: " ++ e.message)
    | .error (.notInstalled complaint) =>
      failure ("Error importing pylint modules: " ++ complaint)
    | .error f => fail f
  c.keepCopyIfWanted name text hasIssues
  return violations

/-- Violations of the same categories, one by one. -/
def SameCategories (vs vs' : List Violation) : Prop := vs'.map (·.category) = vs.map (·.category)

theorem ask_lockstep {alter : Violation → Violation} (h : ∀ v, (alter v).category = v.category) (c : Config)
    (scripts : List (Text × Script)) :
    Lockstep SameCategories (c.ask scripts) (c.askAltered alter scripts) := by
  have hsame (x : Session (List Violation)) : Lockstep SameCategories x x :=
    (Lockstep.refl x).mono fun vs vs' hvs => by rw [hvs]; rfl
  unfold ask askAltered
  refine .after _ fun sent => ?_
  obtain ⟨text, owners⟩ := sent
  dsimp only
  cases text.halves? with
  | some run => exact .fail_bind _ _ _
  | none =>
    refine .after _ fun name => .after _ fun w => .after _ fun reply => ?_
    cases reply with
    | ok output =>
      refine .after _ fun vs => ?_
      rw [pure_bind, pure_bind, isEmpty_map]
      refine .after _ fun _ => .pure ?_
      simp [SameCategories, h]
    | error f => cases f <;> exact hsame _

/-! ## What an asking is used for -/

section Asking

variable (ask : Asking) (c : Config)

/-- Checks scripts as `checkScripts` does, with another way of asking. -/
def checkScriptsWith (st : State) (scripts : List (Text × Script)) : Session (State × Bool) := do
  let st ← c.clean st
  let texts ← lift (scripts.mapM fun (key, s) => do return (key, ← textOf s))
  if texts.all fun (_, text) => Text.isBlankText text then return (st, false)
  let indent := texts.flatMap fun (key, text) => c.checkIndent key text
  let violations := st.violations ++ (← ask c scripts)
  let counted ← lift (violations.mapM c.countedAs)
  return ({ st with violations, findings := st.findings ++ indent ++ counted.map (⟨·, ""⟩) }, true)

/-- Checks the scripts that wait, with another way of asking. -/
def checkWaitingWith (st : State) : Session (State × List Waiting) := do
  let (checked, formatted) ← c.checkScriptsWith ask st (st.waiting.map fun (key, w) => (key, w.script))
  return ({ checked with waiting := [] }, if formatted then st.waiting.map (·.2) else [])

/-- Handles the end of all views, with another way of asking. -/
def finalizeWith (st : State) : Session (State × List Waiting) := do
  if c.batch then
    if st.waiting.isEmpty then return (st, []) else c.checkWaitingWith ask st
  else return ({ st with findings := [], violations := [] }, [])

end Asking

end Config

/-- States that differ in what is said about violations, apart from their categories. -/
structure State.Alike (st st' : State) : Prop where
  waiting : st'.waiting = st.waiting
  violations : Config.SameCategories st.violations st'.violations
  findings : st'.findings = st.findings
  cleaned : st'.cleaned = st.cleaned
  source : st'.source = st.source

theorem State.Alike.refl (st : State) : st.Alike st := ⟨rfl, rfl, rfl, rfl, rfl⟩

namespace Config

theorem mapM_countedAs (c : Config) {vs vs' : List Violation} (h : SameCategories vs vs') :
    vs'.mapM c.countedAs = vs.mapM c.countedAs := by
  have hcounted (vs : List Violation) : vs.mapM c.countedAs = (vs.map (·.category)).mapM fun category => do
      return (Severity.ofJson? (← c.mapped category)).getD c.scope.severity := by
    rw [mapM_map]
    rfl
  rw [hcounted, hcounted, h]

variable {ask' : Asking} (hask : ∀ c scripts, Session.Lockstep SameCategories (ask c scripts) (ask' c scripts))
include hask

theorem checkScripts_lockstep (c : Config) (st : State) (scripts : List (Text × Script)) :
    Lockstep (fun p p' => p.1.Alike p'.1 ∧ p'.2 = p.2) (c.checkScripts st scripts)
      (c.checkScriptsWith ask' st scripts) := by
  unfold checkScripts checkScriptsWith
  refine .after _ fun st => .after _ fun texts => ?_
  dsimp only
  split
  · exact .pure ⟨.refl st, rfl⟩
  · refine .bind (hask c scripts) fun vs vs' hvs => ?_
    have hall : SameCategories (st.violations ++ vs) (st.violations ++ vs') := by
      rw [SameCategories, map_append, map_append, hvs]
    rw [c.mapM_countedAs hall]
    exact .after _ fun counted => .pure ⟨⟨rfl, hall, rfl, rfl, rfl⟩, rfl⟩

theorem finalize_lockstep (c : Config) (st : State) :
    Lockstep (fun p p' => p.1.Alike p'.1 ∧ p'.2 = p.2) (c.finalize st) (c.finalizeWith ask' st) := by
  unfold finalize finalizeWith
  split
  · split
    · exact .pure ⟨.refl st, rfl⟩
    · refine .bind (checkScripts_lockstep hask c st _) fun p p' hp => .pure ?_
      exact ⟨⟨rfl, hp.1.violations, hp.1.findings, hp.1.cleaned, hp.1.source⟩, by rw [hp.2]⟩
  · exact .pure ⟨.refl _, rfl⟩

end Config

end ScriptCheck

/-! ## Rules and engines that differ in messages only -/

/-- The form that violations are put into fails or not whatever their messages are. -/
theorem ScriptCheck.Config.format_orFault (c : Config) {vs vs' : List Violation} (h : SameCategories vs vs') :
    OrFault (fun _ _ => True) (c.format vs) (c.format vs') := by
  have hany (category : CodePoint) : vs'.any (·.category == category) = vs.any (·.category == category) := by
    have hmap (vs : List Violation) : vs.any (·.category == category) = (vs.map (·.category)).any (· == category) := by
      rw [any_map]
      rfl
    rw [hmap, hmap, h]
  have hgrouped : OrFault (Forall₂ fun _ _ => True) (c.grouped vs) (c.grouped vs') := by
    unfold grouped
    simp only [hany]
    exact .mapM (fun x => .after _ fun _ => .ok trivial) _
  refine hgrouped.bind fun groups groups' _ => ?_
  split <;> split <;> exact .ok trivial

/-- Rules that differ in what is said about violations of scripts, apart from their categories. -/
inductive Check.Alike : Check → Check → Prop where
  | same (check : Check) : Alike check check
  | scripts (c : ScriptCheck.Config) {st st' : ScriptCheck.State} (h : st.Alike st') :
    Alike (.scripts c st) (.scripts c st')

namespace Rule

structure Alike (r r' : Rule) : Prop where
  check : r.check.Alike r'.check
  findings : r'.findings = r.findings
  fixes : r'.fixes = r.fixes

theorem Alike.refl (r : Rule) : r.Alike r := ⟨.same _, rfl, rfl⟩

theorem Alike.name_eq {r r' : Rule} (h : r.Alike r') : r'.name = r.name := by
  obtain ⟨check, findings, fixes⟩ := r
  obtain ⟨check', findings', fixes'⟩ := r'
  obtain ⟨hcheck, -, -⟩ := h
  cases hcheck <;> rfl

/-- Handles the end of all views, with another way of asking. -/
def finalizeWith (ask : ScriptCheck.Asking) (r : Rule) : Session (Rule × List ScriptCheck.Waiting) := do
  match r.check with
  | .scripts c st =>
    let (st, formatted) ← c.finalizeWith ask st
    return ({ r with check := .scripts c st, findings := st.findings }, formatted)
  | .unused _ true => return ({ r with findings := [] }, [])
  | _ => return (r, [])

theorem finalize_lockstep {ask' : Asking}
    (hask : ∀ c scripts, Lockstep Config.SameCategories (c.ask scripts) (ask' c scripts))
    (r : Rule) : Lockstep (fun p p' => p.1.Alike p'.1 ∧ p'.2 = p.2) r.finalize (r.finalizeWith ask') := by
  unfold finalize finalizeWith
  cases r.check with
  | scripts c st =>
    refine .bind (Config.finalize_lockstep hask c st) fun p p' hp => .pure ?_
    exact ⟨⟨.scripts c hp.1, hp.1.findings, rfl⟩, hp.2⟩
  | unused c complete => cases complete <;> exact .pure ⟨.refl _, rfl⟩
  | _ => exact .pure ⟨.refl _, rfl⟩

end Rule

theorem Rule.Alike.format_orFault {r r' : Rule} (h : r.Alike r') : OrFault (fun _ _ => True) r.format r'.format := by
  obtain ⟨check, findings, fixes⟩ := r
  obtain ⟨check', findings', fixes'⟩ := r'
  obtain ⟨hcheck, -, -⟩ := h
  cases hcheck with
  | same check =>
    change OrFault _ (format ⟨check, findings, fixes⟩) (format ⟨check, findings, fixes⟩)
    cases format ⟨check, findings, fixes⟩ with
    | ok formatted => exact .ok trivial
    | error f => exact .fault f
  | scripts c hst => exact c.format_orFault hst.violations

/-- Results that differ in the forms that rules have put them into. -/
structure LintResults.Alike (r r' : LintResults) : Prop where
  warnings : r'.warnings = r.warnings
  errors : r'.errors = r.errors
  timed : r'.timed = r.timed
  fixes : r'.fixes = r.fixes

theorem LintResults.add_orFault {r r' : LintResults} {rule rule' : Rule} (h : r.Alike r') (hrule : rule.Alike rule')
    (timing : List Text) : OrFault Alike (r.add timing rule) (r'.add timing rule') := by
  have hmessages (s : Severity) : rule'.messages s = rule.messages s := by
    rw [messages, messages, hrule.findings]
  refine hrule.format_orFault.bind fun _ _ _ => .ok ⟨?_, ?_, ?_, h.fixes⟩
  · simp only [h.warnings, hrule.name_eq, hmessages]
  · simp only [h.errors, hrule.name_eq, hmessages]
  · simp only [h.timed]

namespace Engine

/-- Engines whose rules differ in messages only. -/
structure Alike (e e' : Engine) : Prop where
  rules : List.Forall₂ Rule.Alike e.rules e'.rules
  flat : e'.flat = e.flat
  model : e'.model = e.model
  stamp : e'.stamp = e.stamp
  debugOutput : e'.debugOutput = e.debugOutput

theorem Alike.settle {e e' : Engine} (h : e.Alike e') (formatted : List Waiting) :
    (e.settle formatted).Alike (e'.settle formatted) := by
  simp only [Engine.settle, h.stamp]
  split
  · exact h
  · exact ⟨h.rules, h.flat, by rw [h.model], rfl, h.debugOutput⟩

theorem Alike.withRules {e e' : Engine} (h : e.Alike e') {rules rules' : List Rule}
    (hrules : List.Forall₂ Rule.Alike rules rules') : Alike { e with rules } { e' with rules := rules' } :=
  ⟨hrules, h.flat, h.model, h.stamp, h.debugOutput⟩

/-- Lets rules finish after the last view, with another way of asking. -/
def finishRulesWith (ask : ScriptCheck.Asking) (timing : Bool) :
    List Rule → Engine → LintResults → Session (Engine × LintResults)
  | [], e, results => return (e, results)
  | r :: rest, e, results => do
    if !r.hasFinish then finishRulesWith ask timing rest { e with rules := e.rules ++ [r] } results
    else
      let (r, formatted) ← r.finalizeWith ask
      let results ← lift (results.add (if timing then [r.name ++ "_finalize"] else []) r)
      finishRulesWith ask timing rest { e.settle formatted with rules := e.rules ++ [r] } results

/-- Lets the rules finish after the last view, with another way of asking. -/
def finalizeWith (ask : ScriptCheck.Asking) (e : Engine) (timing : Bool) : Session (Engine × LintResults) :=
  finishRulesWith ask timing e.rules { e with rules := [] } {}

variable {ask' : ScriptCheck.Asking}
  (hask : ∀ c scripts, Session.Lockstep ScriptCheck.Config.SameCategories (c.ask scripts) (ask' c scripts))
include hask

theorem finishRules_lockstep (timing : Bool) (rules : List Rule) {e e' : Engine} (he : e.Alike e')
    {results results' : LintResults} (hresults : results.Alike results') :
    Lockstep (fun p p' => p.1.Alike p'.1 ∧ p.2.Alike p'.2) (finishRules timing rules e results)
      (finishRulesWith ask' timing rules e' results') := by
  induction rules generalizing e e' results results' with
  | nil => exact .pure ⟨he, hresults⟩
  | cons r rules ih =>
    rw [finishRules, finishRulesWith]
    split
    · exact ih (he.withRules (rel_append he.rules (.cons (.refl r) .nil))) hresults
    · refine .bind (finalize_lockstep hask r) fun (r, formatted) (r', formatted') hp => ?_
      obtain ⟨hr, hformatted⟩ := hp
      dsimp only at hr hformatted ⊢
      rw [hr.name_eq, hformatted]
      refine .bind (.lift (LintResults.add_orFault hresults hr _)) fun results results' hresults => ?_
      exact ih ((he.settle formatted).withRules (rel_append he.rules (.cons hr .nil))) hresults

end Engine

/-! ## A run in which messages are altered -/

namespace Run

/-- A run up to the end of the last file: the files that were chosen, and what has been found in them. -/
def checked (o : Options) : Session (Collected × Progress) := do
  clean o
  let whitelist ← whitelist o
  let engine ← prepare o
  let c ← Collect.run whitelist o.filenames o.files o.each.verbose
  if c.chosen.isEmpty then
    printLine "❌ No files specified or found"
    exit 0
  if o.each.verbose then
    printLine ("📁 Processing " ++ natText c.chosen.length ++ " files")
  let timing ← startTiming o
  return (c, ← files o.each { engine, timing } c.chosen)

/-- What has been found once the rules have finished. -/
def concluded (o : Options) (c : Collected) (p : Progress) (last : Option LintResults) : Session RunResults := do
  reportTiming o p
  return { files := p.results, totals := p.totals, finish := last, whitelisted := c.whitelisted }

theorem found_eq (o : Options) : found o = (do
    let (c, p) ← checked o
    let (p, last) ← finish o.each c.chosen.length p
    concluded o c p last) := by
  unfold found foundIn checked concluded
  simp only [bind_assoc]
  refine bind_congr fun _ => bind_congr fun whitelist => bind_congr fun engine => bind_congr fun c => ?_
  cases c.chosen.isEmpty <;> cases o.each.verbose <;> simp

/-- Lets the rules finish, with another way of asking the script checker. -/
def finishWith (ask : ScriptCheck.Asking) (o : FileRun.Options) (fileCount : Nat) (p : Progress) :
    Session (Progress × Option LintResults) := do
  if o.statsOnly then return (p, none)
  let (engine, r) ← p.engine.finalizeWith ask o.timing
  printLines (Console.finish fileCount r)
  return ({ p with engine, totals := addFinish p.totals r }, some r)

/-- A run up to its results file, with another way of asking after the last file. -/
def foundWith (ask : ScriptCheck.Asking) (o : Options) : Session RunResults := do
  let (c, p) ← checked o
  let (p, last) ← finishWith ask o.each c.chosen.length p
  concluded o c p last

/-- A whole run, with another way of asking after the last file. -/
def lintWith (ask : ScriptCheck.Asking) (o : Options) : Session Unit := do
  let r ← foundWith ask o
  conclude o (← shown o r)

/-- What a run has found, apart from the forms that rules have put their messages into after the last file. -/
structure Agrees (r r' : RunResults) : Prop where
  files : r'.files = r.files
  totals : r'.totals = r.totals
  whitelisted : r'.whitelisted = r.whitelisted
  finish : Option.Rel LintResults.Alike r.finish r'.finish

variable {ask' : ScriptCheck.Asking}
  (hask : ∀ c scripts, Session.Lockstep ScriptCheck.Config.SameCategories (c.ask scripts) (ask' c scripts))
include hask

theorem finish_lockstep (o : FileRun.Options) (count : Nat) (p : Progress) :
    Lockstep (fun x x' => x'.1.totals = x.1.totals ∧ x'.1.timing = x.1.timing ∧ x'.1.results = x.1.results
      ∧ Option.Rel LintResults.Alike x.2 x'.2) (finish o count p) (finishWith ask' o count p) := by
  unfold finish finishWith
  split
  · exact .pure ⟨rfl, rfl, rfl, .none⟩
  · have hempty : Engine.Alike { p.engine with rules := [] } { p.engine with rules := [] } :=
      ⟨.nil, rfl, rfl, rfl, rfl⟩
    refine .bind (Engine.finishRules_lockstep hask o.timing p.engine.rules hempty ⟨rfl, rfl, rfl, rfl⟩)
      fun (e, r) (e', r') hp => ?_
    dsimp only at hp ⊢
    rw [Console.finish, Console.finish, hp.2.warnings, hp.2.errors]
    refine .after _ fun _ => .pure ⟨?_, rfl, rfl, .some hp.2⟩
    simp only [addFinish, hp.2.warnings, hp.2.errors]

theorem found_lockstep (o : Options) : Lockstep Agrees (found o) (foundWith ask' o) := by
  rw [found_eq, foundWith]
  refine .after _ fun (c, p) => ?_
  refine .bind (finish_lockstep hask o.each c.chosen.length p) fun (p, last) (p', last') hp => ?_
  obtain ⟨htotals, htiming, hresults, hlast⟩ := hp
  have hreport : reportTiming o p' = reportTiming o p := by
    dsimp only at htiming
    rw [reportTiming, reportTiming, htiming]
  dsimp only [concluded]
  rw [hreport]
  exact .after _ fun _ => .pure ⟨hresults, htotals, rfl, hlast⟩

theorem lint_eq_lintWith {o : Options} (hresults : o.resultsOutput = none) : lint o = lintWith ask' o := by
  have hstep : Lockstep Eq (lint o) (lintWith ask' o) := by
    rw [lint_eq, lintWith]
    refine .bind (found_lockstep hask o) fun r r' hr => ?_
    simp only [shown, hresults, hr.totals]
    exact .refl _
  simpa only [id_map] using hstep.map_eq (f := id) (g := id)

end Run

end ViewLint
