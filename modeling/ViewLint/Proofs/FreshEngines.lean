import ViewLint.Proofs.EngineRuns
import ViewLint.Proofs.Lockstep

/-!
# Engines that are used again

An engine with rules that gather nothing answers each request as a new engine would that has never seen
another view, but for the locator that its rules remember.

* `reviewAll`: what rules that need no files say about a view, one after another.
* **`replies_of_fresh_engines`**: the replies of a run are those of new engines, and nothing is reported twice.
-/

namespace ViewLint

open List Session Model Rule Desk Engine

variable {results : LintResults}

/-! ## Rules one after another -/

namespace Rule

variable {r : Rule} {last : Option Locator}

/-- A rule that gathers nothing, remembers a given locator, and holds no findings about an earlier view if it
takes itself for new. -/
structure Settled (last : Option Locator) (r : Rule) : Prop where
  perFile : r.check.isPerFile = true
  remembers : r.check.Remembers last
  quiet : ∀ c, r.check = .unused c false → r.findings = []

theorem not_scripts (hfile : r.check.isPerFile = true) (c : ScriptCheck.Config) (st : ScriptCheck.State) :
    r.check ≠ .scripts c st := by
  intro heq
  rw [heq] at hfile
  cases hfile

theorem format_of_perFile (hfile : r.check.isPerFile = true) : r.format = .ok none := by
  rw [format]
  split
  · next heq => exact absurd heq (not_scripts hfile _ _)
  · rfl

end Rule

/-- What rules that need no files say about a view, one after another. -/
def reviewAll (timing : Bool) (locator : Option Locator) (flat : Flat) (nodes : List Node) :
    List Rule → LintResults → Except Fault (List Rule × LintResults)
  | [], results => .ok ([], results)
  | r :: rest, results => do
    let (check, findings, fixes) ← (r.check.withLocator locator).inspect flat nodes
    let r : Rule := { check, findings, fixes }
    let results ← results.add (if timing then [r.name] else []) r
    let (rules, results) ← reviewAll timing locator flat nodes rest results
    return (r :: rules, results)

section Review

variable {timing : Bool} {locator last : Option Locator} {flat : Flat} {nodes : List Node} {rules rules' : List Rule}
  {results results' : LintResults}

theorem Engine.applyRules_eq (source : Json) (h : ∀ r ∈ rules, r.check.isPerFile = true) (e : Engine) :
    applyRules source locator timing rules e results =
      lift ((reviewAll timing locator e.flat e.nodes rules results).map fun p =>
        ({ e with rules := e.rules ++ p.1 }, p.2)) := by
  induction rules generalizing e results with
  | nil =>
    rw [applyRules, reviewAll]
    simp [Except.map, lift]
  | cons r rules ih =>
    rw [applyRules, reviewAll, Rule.process_eq (Rule.not_scripts (h r mem_cons_self))]
    -- A fault ends both sides, at the view, at the report of the rule, or at a later rule.
    cases (r.check.withLocator locator).inspect e.flat e.nodes with
    | error f => rfl
    | ok p =>
      obtain ⟨check, findings, fixes⟩ := p
      let s : Rule := { check, findings, fixes }
      change (lift (results.add (if timing then [s.name] else []) s) >>= fun results =>
        applyRules source locator timing rules { e with rules := e.rules ++ [s] } results) = lift (Except.map _
          (results.add (if timing then [s.name] else []) s >>= fun results =>
            reviewAll timing locator e.flat e.nodes rules results >>= fun p => .ok (s :: p.1, p.2)))
      cases results.add (if timing then [s.name] else []) s with
      | error f => rfl
      | ok results =>
        change applyRules source locator timing rules { e with rules := e.rules ++ [s] } results = _
        rw [ih fun r hr => h r (mem_cons_of_mem _ hr)]
        change lift (Except.map _ (reviewAll timing locator e.flat e.nodes rules results)) =
          lift (Except.map _ (reviewAll timing locator e.flat e.nodes rules results >>= fun p =>
            .ok (s :: p.1, p.2)))
        cases reviewAll timing locator e.flat e.nodes rules results with
        | error f => rfl
        | ok p => simp [Except.map, bind, Except.bind]

/-- The engine after its rules have been applied, with what they say. -/
def Engine.told (e : Engine) (p : List Rule × LintResults) : Engine × LintResults :=
  ({ e with rules := p.1 }, { p.2 with fixes := p.1.flatMap (·.fixes) })

theorem Engine.process_eq {e : Engine} (h : ∀ r ∈ e.rules, r.check.isPerFile = true) (source : Json) :
    e.process source locator timing = e.saveDebugIfAsked source >>= fun e' =>
      lift ((reviewAll timing locator e'.flat e'.nodes e.rules {}).map e'.told) := by
  rw [process]
  refine (rules_of_saveDebugIfAsked source e).bind_congr fun e' he' => ?_
  rw [he', applyRules_eq source h]
  change (lift (Except.map _ (reviewAll timing locator e'.flat e'.nodes e.rules {})) >>= _) = _
  cases reviewAll timing locator e'.flat e'.nodes e.rules {} <;> rfl

/-- **What rules that gather nothing say about a view does not hang on earlier views**, apart from the
locator. -/
theorem reviewAll_forget (h : ∀ r ∈ rules, r.Settled last) : reviewAll timing locator flat nodes rules results =
      reviewAll timing (locator.or last) flat nodes (rules.map forget) results := by
  induction rules generalizing results with
  | nil => rfl
  | cons r rules ih =>
    have hr := h r mem_cons_self
    rw [map_cons, reviewAll, reviewAll, Check.inspect_forget hr.perFile hr.remembers]
    refine bind_congr fun p => bind_congr fun results => ?_
    rw [ih fun r hr => h r (mem_cons_of_mem _ hr)]

theorem of_reviewAll (h : ∀ r ∈ rules, r.Settled last)
    (hreview : reviewAll timing locator flat nodes rules results = .ok (rules', results')) :
    rules'.map forget = rules.map forget ∧ ∀ r ∈ rules', r.Settled (locator.or last) := by
  induction rules generalizing results rules' with
  | nil =>
    cases hreview
    exact ⟨rfl, fun r hr => absurd hr not_mem_nil⟩
  | cons r rules ih =>
    have hr := h r mem_cons_self
    obtain ⟨⟨check, findings, fixes⟩, hinspect, hreview⟩ := bind_eq_ok.mp hreview
    obtain ⟨results₁, -, hreview⟩ := bind_eq_ok.mp hreview
    obtain ⟨⟨rest, results₂⟩, hrest, heq⟩ := bind_eq_ok.mp hreview
    cases heq
    obtain ⟨-, hremembers, -, hnew⟩ := Check.of_inspect hinspect
    have hforget := Check.forget_of_inspect hinspect
    obtain ⟨hmap, hall⟩ := ih (fun r hr => h r (mem_cons_of_mem _ hr)) hrest
    refine ⟨?_, forall_mem_cons.mpr ⟨?_, hall⟩⟩
    · rw [map_cons, map_cons, hmap, forget, hforget]
      rfl
    · exact {
        perFile := (Check.isPerFile_of_forget hforget).trans hr.perFile
        remembers := hremembers _ (Check.remembers_withLocator hr.remembers locator)
        quiet := fun c hc => absurd hc (hnew c) }

/-- Rules that gather nothing tell the same if they differ in their memory only. -/
theorem LintResults.add_congr {check check' : Check} (hforget : check'.forget = check.forget)
    (hfile : check.isPerFile = true) (findings : List Finding) (fixes fixes' : List Fix) (timed : List Text) :
    results.add timed ⟨check', findings, fixes'⟩ = results.add timed ⟨check, findings, fixes⟩ := by
  have hfile' : check'.isPerFile = true := (Check.isPerFile_of_forget hforget).trans hfile
  have hname : check'.name = check.name := Check.name_of_forget hforget
  have hformat : ∀ r : Rule, r.check.isPerFile = true → r.format = .ok none := fun r => format_of_perFile
  simp only [add, hformat, hfile, hfile', messages, name, hname]

/-- **Rules tell without a locator what they tell with one**, if they give an answer with it. -/
theorem reviewAll_none (h : ∀ r ∈ rules, r.Settled none)
    (hreview : reviewAll timing locator flat nodes rules results = .ok (rules', results')) :
    ∃ rules'', reviewAll timing none flat nodes rules results = .ok (rules'', results') := by
  induction rules generalizing results rules' with
  | nil =>
    cases hreview
    exact ⟨_, rfl⟩
  | cons r rules ih =>
    have hr := h r mem_cons_self
    obtain ⟨⟨check, findings, fixes⟩, hinspect, hreview⟩ := bind_eq_ok.mp hreview
    obtain ⟨results₁, hadd, hreview⟩ := bind_eq_ok.mp hreview
    obtain ⟨⟨rest, results₂⟩, hrest, heq⟩ := bind_eq_ok.mp hreview
    cases heq
    obtain ⟨check', hinspect'⟩ := Check.inspect_of_locator hr.remembers hinspect
    obtain ⟨rest', hrest'⟩ := ih (fun r hr => h r (mem_cons_of_mem _ hr)) hrest
    have hforget := Check.forget_of_inspect hinspect
    have hsame : check'.forget = check.forget := (Check.forget_of_inspect hinspect').trans hforget.symm
    have hfile : check.isPerFile = true := (Check.isPerFile_of_forget hforget).trans hr.perFile
    have hadd' : results.add (if timing then [check'.name] else []) ⟨check', findings, []⟩ = .ok results₁ := by
      rw [Check.name_of_forget hsame, LintResults.add_congr hsame hfile findings fixes]
      exact hadd
    exact ⟨_, bind_eq_ok.mpr ⟨_, hinspect', bind_eq_ok.mpr ⟨_, hadd', bind_eq_ok.mpr ⟨_, hrest', rfl⟩⟩⟩⟩

end Review

/-! ## What is known about a view -/

section Shown

variable {rs ss : List Rule} {e f : Engine} {flat : Flat} {m : Model} {output : Option Text}

theorem mapM_forget {α : Type} {g : Rule → Except Fault α} (hg : ∀ r, g r.forget = g r)
    (h : rs.map forget = ss.map forget) : rs.mapM g = ss.mapM g := by
  have hforget : ∀ l : List Rule, l.mapM g = (l.map forget).mapM g := fun l => by
    rw [mapM_map]
    exact congrArg (l.mapM ·) (funext fun r => (hg r).symm)
  rw [hforget rs, hforget ss, h]

namespace Engine

/-- An engine with rules and a view that has been loaded. -/
structure Shows (e : Engine) (rules : List Rule) (flat : Flat) (m : Model) (output : Option Text) : Prop where
  rules : e.rules = rules
  flat : e.flat = flat
  model : e.model = some m
  output : e.debugOutput = output

theorem load_eq (hbuild : build flat = .ok m) (e : Engine) :
    ∃ e', e.load flat = .ok e' ∧ e'.Shows e.rules flat m e.debugOutput :=
  ⟨{ e with flat, model := some m, stamp := e.stamp + 1 }, bind_eq_ok.mpr ⟨m, hbuild, rfl⟩, rfl, rfl, rfl, rfl⟩

theorem Shows.load (he : e.Shows rs flat m output) (hbuild : build flat = .ok m) :
    ∃ e', e.load flat = .ok e' ∧ e'.Shows rs flat m output := by
  have hload := load_eq hbuild e
  rwa [he.rules, he.output] at hload

variable (he : e.Shows rs flat m output) (hf : f.Shows ss flat m output)
  (h : rs.map Rule.forget = ss.map Rule.forget)

include he hf

theorem nodes_eq : e.nodes = f.nodes := by rw [nodes, nodes, he.model, hf.model]

theorem allNodes_eq : e.allNodes = f.allNodes := by rw [allNodes, allNodes, he.model, hf.model]

include h

theorem statistics_eq : e.statistics = f.statistics := by
  have hcoverage := mapM_forget (g := fun r => do return (r.name, ← coverage r f.nodes))
    (fun r => by obtain ⟨check, _, _⟩ := r; cases check <;> rfl) h
  simp only [statistics, nodes_eq he hf, he.model, hf.model, he.rules, hf.rules, hcoverage]

theorem analysis_eq : e.analysis = f.analysis := by
  rw [analysis, analysis, allNodes_eq he hf, he.rules, hf.rules]
  exact mapM_forget (fun r => by obtain ⟨check, _, _⟩ := r; cases check <;> rfl) h

theorem writeDebug_lockstep (hbuild : build flat = .ok m) (file : Text → Text) :
    Lockstep (fun e' f' => e'.Shows rs flat m output ∧ f'.Shows ss flat m output)
      (e.writeDebug file) (f.writeDebug file) := by
  obtain ⟨e', he', hloaded⟩ := he.load hbuild
  obtain ⟨f', hf', hloaded'⟩ := hf.load hbuild
  rw [writeDebug, writeDebug, serialize, serialize, he.model, hf.model, he.flat, hf.flat, he', hf']
  refine .after _ fun _ => .after _ fun _ => .after _ fun _ => ?_
  change Lockstep _ (lift e'.statistics >>= _) (lift f'.statistics >>= _)
  rw [statistics_eq hloaded hloaded' h]
  exact .after _ fun _ => .after _ fun _ => .pure ⟨hloaded, hloaded'⟩

/-- **What is saved about a view does not hang on what the rules remember.** -/
theorem saveDebugIfAsked_lockstep (hbuild : build flat = .ok m) (source : Json) :
    Lockstep (fun e' f' => e'.Shows rs flat m output ∧ f'.Shows ss flat m output)
      (e.saveDebugIfAsked source) (f.saveDebugIfAsked source) := by
  rw [saveDebugIfAsked, saveDebugIfAsked, he.output, hf.output]
  split
  · exact .pure ⟨he, hf⟩
  · refine .bind (.attempt (.after _ fun _ => .bind (writeDebug_lockstep he hf h hbuild _) fun _ _ hboth =>
      .after _ fun _ => .pure hboth)) fun r r' hr => ?_
    cases hr with
    | ok hboth => exact .pure hboth
    | fault fault =>
      dsimp only
      split
      all_goals first | exact .after _ fun _ => .pure ⟨he, hf⟩ | exact .fail _

omit hf h in
/-- **Rules that gather nothing are applied as new ones would be** that are given the last locator. -/
theorem process_lockstep {last : Option Locator} (hf : f.Shows (rs.map forget) flat m output)
    (hbuild : build flat = .ok m) (hsettled : ∀ r ∈ rs, r.Settled last) (source : Json)
    (locator : Option Locator) (timing : Bool) :
    Lockstep (fun p q => p.2 = q.2 ∧ ∃ rs', p.1.Shows rs' flat m output ∧
        rs'.map forget = rs.map forget ∧ ∀ r ∈ rs', r.Settled (locator.or last))
      (e.process source locator timing) (f.process source (locator.or last) timing) := by
  have hforget : rs.map forget = (rs.map forget).map forget := by
    rw [map_map]
    exact map_congr_left fun r _ => by obtain ⟨check, _, _⟩ := r; cases check <;> rfl
  have hfile : ∀ r ∈ rs, r.check.isPerFile = true := fun r hr => (hsettled r hr).perFile
  have hfile' : ∀ r ∈ rs.map forget, r.check.isPerFile = true := by
    intro s hs
    obtain ⟨r, hr, rfl⟩ := mem_map.mp hs
    exact (Check.isPerFile_forget r.check).trans (hfile r hr)
  rw [process_eq (he.rules ▸ hfile), process_eq (hf.rules ▸ hfile')]
  refine .bind (saveDebugIfAsked_lockstep he hf hforget hbuild source) fun e' f' ⟨he', hf'⟩ => ?_
  rw [he.rules, hf.rules, he'.flat, hf'.flat, nodes_eq he' hf', ← reviewAll_forget hsettled]
  cases hreview : reviewAll timing locator flat f'.nodes rs {} with
  | error fault => exact .fail fault
  | ok p =>
    obtain ⟨rs', results⟩ := p
    obtain ⟨hsame, hnext⟩ := of_reviewAll hsettled hreview
    exact .pure ⟨rfl, rs', ⟨rfl, he'.flat, he'.model, he'.output⟩, hsame, hnext⟩

end Engine

end Shown

/-! ## Desks -/

namespace Desk

variable {fault : Fault} {m : Model} {n : Nat} {flats : Nat → Flat} {rules : List Rule}
  {output : Option Text} {last : Option Locator} {d f : Desk}

/-- A desk with rules that were new once, which remember a locator, and with the view that it says. -/
structure Sound (flats : Nat → Flat) (rules : List Rule) (output : Option Text) (last : Option Locator)
    (d : Desk) : Prop where
  forgets : d.engine.rules.map Rule.forget = rules
  settled : ∀ r ∈ d.engine.rules, r.Settled last
  saves : d.engine.debugOutput = output
  held : ∀ n, d.held = some n → ∃ m, Model.build (flats n) = .ok m ∧ d.engine.Shows d.engine.rules (flats n) m output

theorem Sound.new (hfresh : ∀ r ∈ rules, r.IsFresh) (hfile : ∀ r ∈ rules, r.check.isPerFile = true) :
    (new rules output).Sound flats rules output none where
  forgets := (map_congr_left hfresh).trans (map_id rules)
  settled r hr := ⟨hfile r hr, (hfresh r hr).recalls.1, fun _ _ => hfresh r hr ▸ rfl⟩
  saves := rfl
  held := nofun

/-- A desk on which a numbered view lies. -/
def Holds (flats : Nat → Flat) (rules : List Rule) (output : Option Text) (n : Nat) (m : Model) (d : Desk) : Prop :=
  d.held = some n ∧ d.engine.Shows rules (flats n) m output

theorem Holds.sound {rs : List Rule} (h : d.Holds flats rs output n m)
    (hbuild : build (flats n) = .ok m) (hrules : rs.map forget = rules)
    (hsettled : ∀ r ∈ rs, r.Settled last) : d.Sound flats rules output last where
  forgets := h.2.rules ▸ hrules
  settled := h.2.rules ▸ hsettled
  saves := h.2.output
  held k hk := by
    cases h.1.symm.trans hk
    exact ⟨m, hbuild, h.2.rules.symm ▸ h.2⟩

theorem Sound.load (h : d.Sound flats rules output last) (hbuild : build (flats n) = .ok m) :
    ∃ d', d.load n (flats n) = .ok d' ∧ d'.Holds flats d.engine.rules output n m := by
  obtain ⟨e, he, hshows⟩ := load_eq hbuild d.engine
  exact ⟨⟨e, some n⟩, bind_eq_ok.mpr ⟨e, he, rfl⟩, rfl, h.saves ▸ hshows⟩

theorem Sound.hold (h : d.Sound flats rules output last) (hbuild : build (flats n) = .ok m) :
    ∃ d', d.hold n (flats n) = .ok d' ∧ d'.Holds flats d.engine.rules output n m := by
  rw [Desk.hold]
  split
  · next hheld =>
    obtain ⟨m', hbuild', hshows⟩ := h.held n (beq_iff_eq.mp hheld)
    cases hbuild.symm.trans hbuild'
    exact ⟨d, rfl, beq_iff_eq.mp hheld, hshows⟩
  · exact h.load hbuild

theorem load_of_error (hbuild : build (flats n) = .error fault) (d : Desk) : d.load n (flats n) = .error fault := by
  rw [load, Engine.load, hbuild]
  rfl

theorem Sound.hold_of_error (h : d.Sound flats rules output last)
    (hbuild : build (flats n) = .error fault) : d.hold n (flats n) = .error fault := by
  rw [Desk.hold]
  split
  · next hheld =>
    obtain ⟨m, hbuild', -⟩ := h.held n (beq_iff_eq.mp hheld)
    cases hbuild.symm.trans hbuild'
  · exact load_of_error hbuild d

theorem answer_lockstep (h : d.Sound flats rules output last)
    (hnew : (new rules output).Sound flats rules output none) (n : Nat) (request : Request) :
    Lockstep (fun p q => p.2 = q.2 ∧ p.1.Sound flats rules output (request.locator?.or last))
      (d.answer n (flats n) request) ((new rules output).answer n (flats n) (request.inherit last)) := by
  cases hbuild : build (flats n) with
  | error fault =>
    cases request with
    | process source locator timing =>
      simp only [Request.inherit, answer, h.hold_of_error hbuild, hnew.hold_of_error hbuild]
      exact .fail_bind fault _ _
    | _ =>
      simp only [Request.inherit, answer, load_of_error hbuild]
      exact .fail_bind fault _ _
  | ok m =>
    obtain ⟨d', hd', hloaded⟩ := h.load hbuild
    obtain ⟨f', hf', hloaded'⟩ := hnew.load hbuild
    have hsound : d'.Sound flats rules output last := hloaded.sound hbuild h.forgets h.settled
    have halike : d.engine.rules.map forget = (new rules output).engine.rules.map forget :=
      h.forgets.trans hnew.forgets.symm
    cases request with
    | process source locator timing =>
      -- The view may lie on the used desk already, and is built on the new one.
      obtain ⟨d', hd', hheld⟩ := h.hold hbuild
      obtain ⟨f', hf', hheld'⟩ := hnew.hold hbuild
      simp only [Request.inherit, answer, hd', hf']
      have hshows : f'.engine.Shows (d.engine.rules.map forget) (flats n) m output := h.forgets.symm ▸ hheld'.2
      refine .ok_bind (.bind (process_lockstep hheld.2 hshows hbuild h.settled source locator timing) ?_)
      rintro p q ⟨heq, rs', hrules, hsame, hsettled⟩
      refine .pure ⟨congrArg Reply.results heq, ?_⟩
      exact Holds.sound ⟨hheld.1, hrules⟩ hbuild (hsame.trans h.forgets) hsettled
    | statistics | analysis =>
      simp only [Request.inherit, answer, hd', hf']
      refine .ok_bind ?_
      first
        | rw [statistics_eq hloaded.2 hloaded'.2 halike]
        | rw [analysis_eq hloaded.2 hloaded'.2 halike]
      exact .after _ fun _ => .pure ⟨rfl, hsound⟩
    | debugNodes kinds =>
      simp only [Request.inherit, answer, hd', hf']
      refine .ok_bind ?_
      rw [debugNodes, debugNodes, allNodes_eq hloaded.2 hloaded'.2]
      exact .after _ fun _ => .after _ fun _ => .pure ⟨rfl, hsound⟩

end Desk

/-! ## Runs -/

/-- The reply to a call of a desk that has seen no view. -/
def alone (flats : Nat → Flat) (rules : List Rule) (output : Option Text) (call : Call) : Session Reply :=
  (·.2) <$> (Desk.new rules output).answer call.view (flats call.view) call.request

def Reply.withoutFixes : Reply → Reply
  | .results r => .results { r with fixes := [] }
  | reply => reply

section Runs

variable {flats : Nat → Flat} {rules : List Rule} {output : Option Text} {last : Option Locator} {d : Desk}

theorem run_lockstep (h : d.Sound flats rules output last)
    (hnew : (new rules output).Sound flats rules output none) (calls : List Call) :
    Lockstep (fun p replies => p.2 = replies ∧ ∃ next, p.1.Sound flats rules output next)
      (d.run flats calls) ((inherited last calls).mapM (alone flats rules output)) := by
  induction calls generalizing d last with
  | nil => exact .pure ⟨rfl, last, h⟩
  | cons call calls ih =>
    rw [run, inherited, mapM_cons]
    have hcall : Lockstep (fun p reply => p.2 = reply ∧ p.1.Sound flats rules output (call.request.locator?.or last))
        (d.answer call.view (flats call.view) call.request)
        (alone flats rules output { call with request := call.request.inherit last }) :=
      (answer_lockstep h hnew call.view call.request).map_right fun p q hpq => hpq
    refine .bind hcall ?_
    -- The new desk is put away after its call, the used one stays sound with the last locator.
    rintro ⟨d', reply⟩ _ ⟨rfl, hsound⟩
    refine .bind (ih hsound) ?_
    rintro ⟨d'', replies⟩ _ ⟨rfl, hnext⟩
    exact .pure ⟨rfl, hnext⟩

/-- An engine tells without a locator what it tells with one, but for fixes. -/
theorem Engine.process_none {e e' : Engine} (hsettled : ∀ r ∈ e.rules, r.Settled none) {source : Json}
    {locator : Option Locator} {timing : Bool} {w w' : Workspace}
    (h : runIn w (e.process source locator timing) = (.ok (e', results), w')) :
    ∃ e'' results', runIn w (e.process source none timing) = (.ok (e'', results'), w') ∧
      (Reply.results results').withoutFixes = (Reply.results results).withoutFixes := by
  have hfile : ∀ r ∈ e.rules, r.check.isPerFile = true := fun r hr => (hsettled r hr).perFile
  rw [process_eq hfile] at h ⊢
  obtain ⟨e₁, v, hsave, h⟩ := runIn_bind_eq_ok.mp h
  obtain ⟨hmap, rfl⟩ := runIn_lift_eq_ok.mp h
  obtain ⟨p, hreview, heq⟩ := map_eq_ok.mp hmap
  cases heq
  obtain ⟨rules', hreview'⟩ := reviewAll_none hsettled hreview
  have hnone : runIn v (lift ((reviewAll timing none e₁.flat e₁.nodes e.rules {}).map e₁.told)) =
      (.ok (e₁.told (rules', p.2)), v) := by rw [hreview']; rfl
  exact ⟨_, _, runIn_bind_eq_ok.mpr ⟨e₁, v, hsave, hnone⟩, rfl⟩

/-- A new desk replies without a locator what it replies with one, but for fixes. -/
theorem alone_none (hnew : (new rules output).Sound flats rules output none) (call : Call) {w w' : Workspace}
    {reply : Reply} (h : runIn w (alone flats rules output { call with request := call.request.inherit last }) =
      (.ok reply, w')) :
    ∃ reply', runIn w (alone flats rules output call) = (.ok reply', w') ∧
      reply'.withoutFixes = reply.withoutFixes := by
  obtain ⟨view, request⟩ := call
  cases request with
  | process source locator timing =>
    cases locator with
    | some l => exact ⟨reply, h, rfl⟩
    | none =>
      rw [alone, map_eq_pure_bind] at h ⊢
      obtain ⟨⟨d, _⟩, v, hanswer, heq⟩ := runIn_bind_eq_ok.mp h
      cases heq
      obtain ⟨d₁, v₁, hhold, hanswer⟩ := runIn_bind_eq_ok.mp hanswer
      obtain ⟨⟨e, results⟩, v₂, hprocess, hanswer⟩ := runIn_bind_eq_ok.mp hanswer
      cases hanswer
      have hrules := rules_of_hold _ _ (runIn_lift_eq_ok.mp hhold).1
      obtain ⟨e', results', hprocess', hsame⟩ := process_none (hrules ▸ hnew.settled) hprocess
      refine ⟨.results results', runIn_bind_eq_ok.mpr ⟨({ d₁ with engine := e' }, _), _, ?_, rfl⟩, hsame⟩
      exact runIn_bind_eq_ok.mpr ⟨d₁, v₁, hhold, runIn_bind_eq_ok.mpr ⟨_, _, hprocess', rfl⟩⟩
  | _ => exact ⟨reply, h, rfl⟩

/-- New desks reply without the last locators what they reply with them, but for fixes. -/
theorem mapM_alone_none (hnew : (new rules output).Sound flats rules output none) {calls : List Call}
    {w w' : Workspace} {replies : List Reply}
    (h : runIn w ((inherited last calls).mapM (alone flats rules output)) = (.ok replies, w')) :
    ∃ replies', runIn w (calls.mapM (alone flats rules output)) = (.ok replies', w') ∧
      replies'.map Reply.withoutFixes = replies.map Reply.withoutFixes := by
  induction calls generalizing last w replies with
  | nil => exact ⟨replies, h, rfl⟩
  | cons call calls ih =>
    rw [inherited, mapM_cons] at h
    obtain ⟨reply, v, hreply, h⟩ := runIn_bind_eq_ok.mp h
    obtain ⟨rest, v', hrest, h⟩ := runIn_bind_eq_ok.mp h
    cases h
    obtain ⟨reply', hreply', hsame⟩ := alone_none hnew call hreply
    obtain ⟨rest', hrest', hsames⟩ := ih hrest
    refine ⟨reply' :: rest', ?_, by rw [map_cons, map_cons, hsame, hsames]⟩
    rw [mapM_cons]
    exact runIn_bind_eq_ok.mpr ⟨reply', v, hreply', runIn_bind_eq_ok.mpr ⟨rest', _, hrest', rfl⟩⟩

end Runs

/-! ## The end of a run -/

/-- A rule that gathers nothing finishes without a finding. -/
theorem Rule.finalize_quiet {r : Rule} {last : Option Locator} (h : r.Settled last) (hfinish : r.hasFinish = true) :
    ∃ r' : Rule, r.finalize = pure (r', []) ∧ r'.findings = [] ∧ r'.check.isPerFile = true := by
  obtain ⟨check, findings, fixes⟩ := r
  cases check with
  | scripts c st => exact absurd h.perFile Bool.false_ne_true
  | unused c complete =>
    cases complete with
    | true => exact ⟨_, rfl, rfl, rfl⟩
    | false => exact ⟨_, rfl, h.quiet c rfl, rfl⟩
  | _ => cases hfinish

theorem LintResults.add_quiet {r : Rule} (hfindings : r.findings = [])
    (hfile : r.check.isPerFile = true) (hwarnings : results.warnings = []) (herrors : results.errors = [])
    (timed : List Text) :
    ∃ results', results.add timed r = .ok results' ∧ results'.warnings = [] ∧ results'.errors = [] := by
  rw [add, format_of_perFile hfile]
  refine ⟨_, rfl, ?_, ?_⟩
  · simp [hwarnings, messages, hfindings, Finding.messages, field]
  · simp [herrors, messages, hfindings, Finding.messages, field]

/-- **Rules that gather nothing finish without a warning or an error.** -/
theorem Engine.finishRules_quiet {last : Option Locator} (timing : Bool) {rules : List Rule}
    (h : ∀ r ∈ rules, r.Settled last) (e : Engine) (hwarnings : results.warnings = [])
    (herrors : results.errors = []) :
    ∃ e' results', finishRules timing rules e results = pure (e', results') ∧
      results'.warnings = [] ∧ results'.errors = [] := by
  induction rules generalizing e results with
  | nil => exact ⟨e, results, rfl, hwarnings, herrors⟩
  | cons r rules ih =>
    have hrest : ∀ r ∈ rules, r.Settled last := fun r hr => h r (mem_cons_of_mem _ hr)
    rw [finishRules]
    cases hfinish : r.hasFinish with
    | false => exact ih hrest _ hwarnings herrors
    | true =>
      obtain ⟨r', hr', hfindings, hfile⟩ := finalize_quiet (h r mem_cons_self) hfinish
      obtain ⟨results', hadd, hwarnings', herrors'⟩ := LintResults.add_quiet hfindings hfile hwarnings herrors
        (if timing then [r'.name ++ Text.ofString "_finalize"] else [])
      obtain ⟨e', final, hfinal⟩ := ih hrest { e with rules := e.rules ++ [r'] } hwarnings' herrors'
      refine ⟨e', final, ?_, hfinal.2⟩
      rw [hr', ← hfinal.1]
      change (lift (results.add _ r') >>= _) = _
      rw [hadd]
      rfl

/-! ## New engines -/

/-- **An engine that is used again tells of each view what a new engine tells that has seen no other.** Take any
rules as they are made, all of which gather nothing from view to view, and any calls. The replies to the calls are
those of new engines that are given the last locator where a call comes with none. So, whenever the calls
are answered, new engines answer them as they are and tell the same, apart from fixes; and in the end the
rules finish without a warning or an error. -/
theorem replies_of_fresh_engines {rules : List Rule} (hmade : ∀ r ∈ rules, r.IsMade)
    (hfile : ∀ r ∈ rules, r.check.isPerFile = true) (output : Option Text) (flats : Nat → Flat) (calls : List Call) :
    (·.2) <$> (Desk.new rules output).run flats calls = (inherited none calls).mapM (alone flats rules output) ∧
      ∀ w d replies w', runIn w ((Desk.new rules output).run flats calls) = (.ok (d, replies), w') →
        (∃ replies', runIn w (calls.mapM (alone flats rules output)) = (.ok replies', w') ∧
          replies'.map Reply.withoutFixes = replies.map Reply.withoutFixes) ∧
        ∀ timing, ∃ e results, d.engine.finalize timing = pure (e, results) ∧
          results.warnings = [] ∧ results.errors = [] := by
  have hnew : (Desk.new rules output).Sound flats rules output none :=
    .new (fun r hr => (hmade r hr).isFresh) hfile
  have hrun := run_lockstep hnew hnew calls
  constructor
  · have hreplies : Session.Lockstep (fun p : Desk × List Reply => (p.2 = id ·)) _ _ :=
      hrun.mono fun _ _ h => h.1
    rw [hreplies.map_eq, id_map]
  · intro w d replies w' h
    -- What the new desks reply with the last locators, they reply without them too.
    obtain ⟨_, halone, rfl, next, hsound⟩ := hrun.of_ok h
    exact ⟨mapM_alone_none hnew halone, fun timing => Engine.finishRules_quiet timing hsound.settled _ rfl rfl⟩

/-- A view with a good name that comes with a locator, and one with a forbidden name that is no text. -/
def forbiddenNumber : List Call := [.review 0 (some (panel (.str "A"))), .review 1 none]

theorem replies_of_fresh_engines_secondLocated : ∃ r w d replies w', r.IsMade ∧ r.check.isPerFile = true ∧
    runIn w ((Desk.new [r] none).run (panels [.str "a", .str "a", .str "a"]) secondLocated) = (.ok (d, replies), w') ∧
    ∃ replies', runIn w (secondLocated.mapM (alone (panels [.str "a", .str "a", .str "a"]) [r] none)) =
        (.ok replies', w') ∧ replies'.map Reply.withoutFixes = replies.map Reply.withoutFixes := by
  obtain ⟨r, w, d, replies, w', hmade, hfile, hrun, -⟩ := runIn_secondLocated
  have hmades : ∀ s ∈ [r], s.IsMade := fun s hs => mem_singleton.mp hs ▸ hmade
  have hfiles : ∀ s ∈ [r], s.check.isPerFile = true := fun s hs => mem_singleton.mp hs ▸ hfile
  have hfresh := (replies_of_fresh_engines hmades hfiles none _ _).2 w d replies w' hrun
  exact ⟨r, w, d, replies, w', hmade, hfile, hrun, hfresh.1⟩

/-- New engines answer both calls, while the engine that is used again stops: it tries to make a fix. -/
theorem not_fresh_forbiddenNumber : ∃ r w replies w', r.IsMade ∧ r.check.isPerFile = true ∧
    runIn w (forbiddenNumber.mapM (alone (panels [.str "A", .int 5]) [r] none)) = (.ok replies, w') ∧
    ∀ d replies w'', runIn w ((Desk.new [r] none).run (panels [.str "A", .int 5]) forbiddenNumber) ≠
      (.ok (d, replies), w'') := by
  have hruns : ∃ r w, runIn { store := {}, cwd := [] } (naming (capitals [.int 5])) = (.ok r, w) ∧
      (∃ replies w', runIn w (forbiddenNumber.mapM (alone (panels [.str "A", .int 5]) [r] none)) = (.ok replies, w') ∧ True)
      ∧ ¬ ∃ p w', runIn w ((Desk.new [r] none).run (panels [.str "A", .int 5]) forbiddenNumber) = (.ok p, w') ∧ True := by
    decide +kernel
  obtain ⟨r, w, hmade, ⟨replies, w', hfresh, -⟩, hagain⟩ := hruns
  obtain ⟨hmade, hfile⟩ := isMade_naming hmade
  exact ⟨r, w, replies, w', hmade, hfile, hfresh, fun d replies w'' h => hagain ⟨_, _, h, trivial⟩⟩

end ViewLint
