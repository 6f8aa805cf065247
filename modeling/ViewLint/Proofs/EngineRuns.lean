import ViewLint.Engine.Desk
import ViewLint.Proofs.RuleMemory

/-!
# Runs of an engine

An engine is asked about one view after another. A locator that is given with one request is remembered, and
every later request without one is handled with it.

* `Call`, `Desk.run`: a request about a numbered view, and the replies to requests one after another.
* `inherited`: requests with the last locator filled in where none is given.
* **`fixes_need_locator`**: there are no fixes before the first locator.
-/

namespace ViewLint

open List Session Desk

/-! ## Calls -/

namespace Request

def locator? : Request → Option Locator
  | .process _ locator _ => locator
  | _ => none

def inherit (last : Option Locator) : Request → Request
  | .process source locator timing => .process source (locator.or last) timing
  | request => request

end Request

def Reply.fixes : Reply → List Fix
  | .results r => r.fixes
  | _ => []

/-- A request about a numbered view. -/
structure Call where
  view : Nat
  request : Request

def Desk.new (rules : List Rule) (output : Option Text) : Desk := { engine := { rules, debugOutput := output } }

def inherited (last : Option Locator) : List Call → List Call
  | [] => []
  | call :: calls =>
    { call with request := call.request.inherit last } :: inherited (call.request.locator?.or last) calls

def Desk.run (flats : Nat → Flat) : Desk → List Call → Session (Desk × List Reply)
  | d, [] => return (d, [])
  | d, call :: calls => do
    let (d, reply) ← d.answer call.view (flats call.view) call.request
    let (d, replies) ← d.run flats calls
    return (d, reply :: replies)

/-- No call without a locator gets fixes. -/
def Unasked (calls : List Call) (replies : List Reply) : Prop :=
  List.Forall₂ (fun call reply => call.request.locator? = none → reply.fixes = []) calls replies

/-! ## The last locator -/

namespace Engine

variable {e : Engine} {rules : List Rule} {last : Option Locator} (source : Json) (locator : Option Locator)
  (timing : Bool)

theorem rules_of_load {e' : Engine} {flat : Flat} (h : e.load flat = .ok e') : e'.rules = e.rules := by
  obtain ⟨m, -, heq⟩ := bind_eq_ok.mp h
  cases heq
  rfl

/-- Saving leaves an engine as it is, or loads its view again. -/
theorem gives_saveDebugIfAsked {P : Engine → Prop} (h : P e) (hload : ∀ e', e.load e.flat = .ok e' → P e') :
    Gives P (e.saveDebugIfAsked source) := by
  have hwrite (file : Text → Text) : Gives P (e.writeDebug file) :=
    .after fun _ => .after fun _ => .after fun _ => .bind (.lift hload) fun _ h => .after fun _ => .after fun _ => .pure h
  rw [saveDebugIfAsked]
  split
  · exact .pure h
  · refine .bind (.attempt (.after fun _ => .bind (hwrite _) fun _ h => .after fun _ => .pure h)) fun r hr => ?_
    split
    · next e' => exact .pure (hr e' rfl)
    · split
      all_goals first | exact .after fun _ => .pure h | exact .fail _

theorem rules_of_saveDebugIfAsked (e : Engine) : Gives (fun e' => e'.rules = e.rules) (e.saveDebugIfAsked source) :=
  gives_saveDebugIfAsked source rfl fun _ => rules_of_load

theorem applyRules_or (h : ∀ r ∈ rules, r.check.Remembers last) (e : Engine) (results : LintResults) :
    applyRules source locator timing rules e results =
      applyRules source (locator.or last) timing rules e results := by
  induction rules generalizing e results with
  | nil => rfl
  | cons r rules ih =>
    rw [applyRules, applyRules, Rule.process_or (h r mem_cons_self)]
    refine bind_congr fun p => bind_congr fun results => ?_
    exact ih (fun r hr => h r (mem_cons_of_mem _ hr)) _ _

theorem recalls_of_applyRules (h : ∀ r ∈ rules, r.Recalls last) {e : Engine}
    (he : ∀ r ∈ e.rules, r.Recalls (locator.or last)) (results : LintResults) :
    Gives (fun p => ∀ r ∈ p.1.rules, r.Recalls (locator.or last))
      (applyRules source locator timing rules e results) := by
  induction rules generalizing e results with
  | nil => exact .pure he
  | cons r rules ih =>
    rw [applyRules]
    refine .bind (Rule.recalls_of_process (h r mem_cons_self) _) fun p hp => .after fun results => ?_
    refine ih (fun r hr => h r (mem_cons_of_mem _ hr)) (fun r hr => ?_) results
    obtain hr | hr := mem_append.mp hr
    · exact he r hr
    · exact mem_singleton.mp hr ▸ hp

theorem process_or (h : ∀ r ∈ e.rules, r.check.Remembers last) :
    e.process source locator timing = e.process source (locator.or last) timing := by
  rw [process, process]
  refine (rules_of_saveDebugIfAsked source e).bind_congr fun e' he' => ?_
  rw [applyRules_or source locator timing (he' ▸ h)]

/-- What an engine remembers after a view, and that there are no fixes without a locator. -/
theorem recalls_of_process (h : ∀ r ∈ e.rules, r.Recalls last) :
    Gives (fun p => (∀ r ∈ p.1.rules, r.Recalls (locator.or last)) ∧ (locator.or last = none → p.2.fixes = []))
      (e.process source locator timing) := by
  rw [process]
  refine .bind (rules_of_saveDebugIfAsked source e) fun e' he' => ?_
  have hnew : ∀ r ∈ ({ e' with rules := [] } : Engine).rules, r.Recalls (locator.or last) :=
    fun r hr => absurd hr not_mem_nil
  refine .bind (recalls_of_applyRules source locator timing (he' ▸ h) hnew {}) fun p hp => .pure ⟨hp, fun hnone => ?_⟩
  exact flatMap_eq_nil_iff.mpr fun r hr => (hp r hr).2 hnone

end Engine

namespace Desk

variable {d d' : Desk} {last : Option Locator} (number : Nat) (flat : Flat) (request : Request)

theorem rules_of_load (h : d.load number flat = .ok d') : d'.engine.rules = d.engine.rules := by
  obtain ⟨e, he, heq⟩ := bind_eq_ok.mp h
  cases heq
  exact Engine.rules_of_load he

theorem rules_of_hold (h : d.hold number flat = .ok d') : d'.engine.rules = d.engine.rules := by
  rw [hold] at h
  split at h
  · cases h
    rfl
  · exact rules_of_load number flat h

theorem answer_inherit (h : ∀ r ∈ d.engine.rules, r.check.Remembers last) :
    d.answer number flat request = d.answer number flat (request.inherit last) := by
  cases request with
  | process source locator timing =>
    rw [Request.inherit, answer, answer]
    refine (Gives.lift fun d' => rules_of_hold number flat).bind_congr fun d' hd' => ?_
    rw [Engine.process_or source locator timing (hd' ▸ h)]
  | _ => rfl

theorem recalls_of_answer (h : ∀ r ∈ d.engine.rules, r.Recalls last) :
    Gives (fun p => (∀ r ∈ p.1.engine.rules, r.Recalls (request.locator?.or last)) ∧
      ((request.inherit last).locator? = none → p.2.fixes = [])) (d.answer number flat request) := by
  cases request with
  | process source locator timing =>
    refine .bind (.lift fun d' => rules_of_hold number flat) fun d' hd' => ?_
    refine .bind (Engine.recalls_of_process source locator timing (hd' ▸ h)) fun p hp => .pure hp
  | debugNodes kinds =>
    refine .bind (.lift fun d' => rules_of_load number flat) fun d' hd' => .after fun _ => .after fun _ => .pure ?_
    exact ⟨hd' ▸ h, fun _ => rfl⟩
  | _ =>
    refine .bind (.lift fun d' => rules_of_load number flat) fun d' hd' => .after fun _ => .pure ?_
    exact ⟨hd' ▸ h, fun _ => rfl⟩

end Desk

/-! ## Runs -/

section Runs

variable {flats : Nat → Flat} {d : Desk} {last : Option Locator}

theorem locator?_inherit_or (last : Option Locator) (request : Request) :
    (request.inherit last).locator?.or last = request.locator?.or last := by
  cases request with
  | process source locator timing => cases locator <;> cases last <;> rfl
  | _ => rfl

/-- **A run is a run with the last locators filled in.** -/
theorem run_inherited (h : ∀ r ∈ d.engine.rules, r.Recalls last) (calls : List Call) :
    d.run flats calls = d.run flats (inherited last calls) := by
  induction calls generalizing d last with
  | nil => rfl
  | cons call calls ih =>
    rw [inherited, run, run, answer_inherit _ _ _ fun r hr => (h r hr).1]
    refine (recalls_of_answer _ _ _ h).bind_congr fun ⟨d', reply⟩ hd' => ?_
    rw [locator?_inherit_or] at hd'
    dsimp only
    rw [ih hd'.1]

theorem unasked_of_run (h : ∀ r ∈ d.engine.rules, r.Recalls last) (calls : List Call) :
    Gives (fun p => Unasked (inherited last calls) p.2) (d.run flats calls) := by
  induction calls generalizing d last with
  | nil => exact .pure .nil
  | cons call calls ih =>
    rw [inherited, run]
    refine .bind (recalls_of_answer _ _ _ h) fun p hp => .bind (ih hp.1) fun q hq => .pure ?_
    exact .cons hp.2 hq

/-- **Fixes need a locator, of this call or of an earlier one.** In every run of an engine with rules as they
are made, a call without a locator is handled as if it came with the last locator that was given before, and
gets no fixes if there is none. -/
theorem fixes_need_locator {rules : List Rule} (hmade : ∀ r ∈ rules, r.IsMade) (output : Option Text)
    (flats : Nat → Flat) (calls : List Call) :
    (Desk.new rules output).run flats calls = (Desk.new rules output).run flats (inherited none calls) ∧
      Session.Gives (fun p => Unasked (inherited none calls) p.2) ((Desk.new rules output).run flats calls) := by
  have hrecalls : ∀ r ∈ rules, r.Recalls none := fun r hr => (hmade r hr).isFresh.recalls
  exact ⟨run_inherited hrecalls calls, unasked_of_run hrecalls calls⟩

end Runs

/-! ## A locator that stays -/

def naming (settings : Json) : Session Rule := do
  let made := NamePattern.create settings
  Session.printLines made.remarks
  return { check := .names (← Session.lift made.result) none }

theorem isMade_naming {settings : Json} {w w' : Workspace} {r : Rule} (h : runIn w (naming settings) = (.ok r, w')) :
    r.IsMade ∧ r.check.isPerFile = true := by
  refine ⟨⟨"NamePatternRule", settings, _, w, w', rfl, h⟩, ?_⟩
  obtain ⟨_, _, -, hmade⟩ := runIn_bind_eq_ok.mp h
  obtain ⟨c, _, -, hmade⟩ := runIn_bind_eq_ok.mp hmade
  cases hmade
  rfl

def panel (name : Json) : Json := .object [("root", .object [("meta", .object [("name", name)])])]

/-- The flattened views of components with some names, in order. -/
def panels (names : List Json) (number : Nat) : Flat :=
  (View.flatten (panel (names.getD number .null))).toOption.getD []

/-- The rules applied to a view, with the locator of a document if there is one. -/
def Call.review (view : Nat) (doc : Option Json) : Call :=
  ⟨view, .process .null (doc.bind fun v => (Locator.ofDocument v).toOption) false⟩

/-- Settings that ask for capitals and forbid some names. -/
def capitals (forbidden : List Json) : Json :=
  .object [("convention", .str "PascalCase"), ("forbidden_names", .arr forbidden),
    ("auto_detect_abbreviations", .bool false)]

/-- The same view three times, of which only the second comes with a locator. -/
def secondLocated : List Call := [.review 0 none, .review 1 (some (panel (.str "a"))), .review 2 none]

theorem runIn_secondLocated : ∃ r w d replies w', r.IsMade ∧ r.check.isPerFile = true ∧
    runIn w ((new [r] none).run (panels [.str "a", .str "a", .str "a"]) secondLocated) =
      (.ok (d, replies), w') ∧ replies.map (·.fixes.length) = [0, 1, 1] := by
  have hrun : ∃ r w, runIn { store := {}, cwd := [] } (naming (capitals [])) = (.ok r, w) ∧ ∃ p w',
      runIn w ((new [r] none).run (panels [.str "a", .str "a", .str "a"]) secondLocated) = (.ok p, w') ∧
        p.2.map (·.fixes.length) = [0, 1, 1] := by
    decide +kernel
  obtain ⟨r, w, hmade, ⟨d, replies⟩, w', hrun, hfixes⟩ := hrun
  obtain ⟨hmade, hfile⟩ := isMade_naming hmade
  exact ⟨r, w, d, replies, w', hmade, hfile, hrun, hfixes⟩

theorem fixes_need_locator_secondLocated : ∃ r w d replies w', r.IsMade ∧
    Session.runIn w ((Desk.new [r] none).run (panels [.str "a", .str "a", .str "a"]) secondLocated) =
      (.ok (d, replies), w') ∧ Unasked (inherited none secondLocated) replies := by
  obtain ⟨r, w, d, replies, w', hmade, -, hrun, -⟩ := runIn_secondLocated
  have hall : ∀ s ∈ [r], s.IsMade := fun s hs => List.mem_singleton.mp hs ▸ hmade
  exact ⟨r, w, d, replies, w', hmade, hrun, (fixes_need_locator hall none _ _).2 hrun⟩

/-- The third call gets a fix that it has not asked for. -/
theorem not_unasked_secondLocated : ∃ r w d replies w', r.IsMade ∧
    Session.runIn w ((Desk.new [r] none).run (panels [.str "a", .str "a", .str "a"]) secondLocated) =
      (.ok (d, replies), w') ∧ ¬ Unasked secondLocated replies := by
  obtain ⟨r, w, d, replies, w', hmade, -, hrun, hfixes⟩ := runIn_secondLocated
  refine ⟨r, w, d, replies, w', hmade, hrun, fun h => ?_⟩
  obtain ⟨_, _, -, hrest, rfl⟩ := List.forall₂_cons_left_iff.mp h
  obtain ⟨_, _, -, hthird, rfl⟩ := List.forall₂_cons_left_iff.mp hrest
  obtain ⟨_, _, hnone, -, rfl⟩ := List.forall₂_cons_left_iff.mp hthird
  simp [hnone rfl] at hfixes

end ViewLint
