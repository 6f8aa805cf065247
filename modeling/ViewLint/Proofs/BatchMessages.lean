import ViewLint.Proofs.AlteredViolations

/-!
# Violations that are found after the last file

A rule that checks the scripts of all files together has its violations after the last file. It puts their messages
into a text of its own; what is printed then are its plain findings, and these are empty.

* **`Run.batch_messages_not_printed`**: nothing that is printed depends on the messages.
* `Run.ShowsMessages`, `Run.batch_message_lost`: a run that finds something and does not show it.
-/

namespace ViewLint

open List Session ScriptCheck

variable {rule rule' : Rule} {line : Text} {timing keys : List Text}

/-! ## Where the messages are -/

theorem Text.infix_join {lines : List Text} (h : line ∈ lines) (sep : Text) : line <:+: Text.join sep lines := by
  induction lines with
  | nil => cases h
  | cons first lines ih =>
    cases hlines : lines with
    | nil =>
      subst hlines
      rw [mem_singleton.mp h]
      exact infix_rfl
    | cons second rest =>
      rw [← hlines, Text.join_cons_of_ne_nil _ _ (hlines ▸ cons_ne_nil _ _)]
      obtain rfl | h := mem_cons.mp h
      · exact ⟨[], sep ++ Text.join sep lines, by simp⟩
      · exact (ih h).trans (suffix_append _ _).isInfix

namespace ScriptCheck

variable {owners : Owners} {v : Violation}

/-- A violation of one of the categories. -/
def Violation.IsKnown (v : Violation) : Prop := v.category ∈ categories.map (·.1)

theorem Message.category_mem_of_parse? {m : Message} (h : parse? line = some m) :
    m.category ∈ categories.map (·.1) := by
  rw [parse?] at h
  induction line with
  | nil => cases h
  | cons c line ih =>
    rw [last?] at h
    cases hlast : last? line with
    | some m' =>
      rw [hlast] at h
      exact ih (hlast.trans h)
    | none =>
      rw [hlast] at h
      obtain ⟨-, -, -, hcode, -⟩ := of_here? h
      obtain ⟨category, number, hcode, hmem, -⟩ := hcode
      rw [Message.category, hcode]
      exact hmem

theorem isKnown_of_readLine (h : readLine owners keys line = .violation v) : v.IsKnown := by
  rw [readLine] at h
  repeat' first | split at h | simp only at h
  all_goals cases h
  exact Message.category_mem_of_parse? ‹_›

namespace Config

variable {vs : List Violation} (c : Config)

theorem isKnown_of_readOutput (owners : Owners) (keys : List Text) (output : Text) :
    Gives (fun vs => ∀ v ∈ vs, v.IsKnown) (c.readOutput owners keys output) := by
  have hread {read : Text × Reading → Option Violation} (h : ∀ x v, read x = some v → x.2 = .violation v) :
      ∀ v ∈ (trace owners keys output).filterMap read, v.IsKnown := by
    intro v hv
    obtain ⟨⟨line, r⟩, hmem, hr⟩ := mem_filterMap.mp hv
    obtain rfl : r = .violation v := h _ v hr
    obtain ⟨line', -, hline⟩ := mem_map.mp hmem
    exact isKnown_of_readLine (Prod.mk.inj hline).2
  unfold readOutput
  split
  on_goal 1 => refine .after fun _ => ?_
  all_goals
    refine .pure (hread fun x v h => ?_)
    dsimp only at h
    split at h
    · next hx => rw [hx, Option.some.inj h]
    · cases h

/-- The script checker is only understood to speak of the known categories. -/
theorem isKnown_of_ask (scripts : List (Text × Script)) : Gives (fun vs => ∀ v ∈ vs, v.IsKnown) (c.ask scripts) := by
  have hfailure (complaint : Text) : Gives (fun x => ∀ v ∈ x.1, v.IsKnown)
      (if c.debug = true then printLine complaint >>= fun _ => pure (([] : List Violation), true)
        else pure ([], true)) := by
    split
    · exact .after fun _ => .pure (forall_mem_nil _)
    · exact .pure (forall_mem_nil _)
  unfold ask
  refine .after fun sent => ?_
  obtain ⟨text, owners⟩ := sent
  dsimp only
  cases text.halves? with
  | some run => exact .bind (Gives.fail (P := fun _ => False) _) fun _ h => h.elim
  | none =>
    refine .after fun name => .after fun w => .after fun reply => ?_
    cases reply with
    | ok output =>
      refine .bind (isKnown_of_readOutput c _ _ _) fun vs hvs => ?_
      rw [pure_bind]
      exact .after fun _ => .pure hvs
    | error f =>
      cases f with
      | storage | notInstalled => exact .bind (hfailure _) fun x hx => .after fun _ => .pure hx
      | _ => exact .bind (Gives.fail (P := fun _ => False) _) fun _ h => h.elim

/-- What a check of scripts adds to a state: violations of known categories, findings about indentation, and a finding
without text for every violation. -/
def Extends (st st' : State) : Prop :=
  ∃ (new : List Violation) (texts : List (Text × Text)) (counted : List Severity),
    st'.violations = st.violations ++ new ∧ (∀ v ∈ new, v.IsKnown)
    ∧ st'.findings = st.findings ++ texts.flatMap (fun t => c.checkIndent t.1 t.2) ++ counted.map (⟨·, ""⟩)
    ∧ (st.violations = [] → new.mapM c.countedAs = .ok counted)

theorem Extends.refl (st : State) : c.Extends st st :=
  ⟨[], [], [], (append_nil _).symm, forall_mem_nil _, by simp, fun _ => rfl⟩

theorem kept_of_clean (st : State) :
    Gives (fun st' => st'.violations = st.violations ∧ st'.findings = st.findings) (c.clean st) := by
  unfold clean
  split
  · exact .pure ⟨rfl, rfl⟩
  · refine .after fun directory => .after fun there => ?_
    dsimp only
    split
    · refine .after fun copies => .after fun _ => .after fun notes => .after fun _ => ?_
      split
      · exact .after fun _ => .pure ⟨rfl, rfl⟩
      · exact .pure ⟨rfl, rfl⟩
    · exact .pure ⟨rfl, rfl⟩

theorem extends_of_checkScripts (st : State) (scripts : List (Text × Script)) :
    Gives (fun p => c.Extends st p.1) (c.checkScripts st scripts) := by
  unfold checkScripts
  refine .bind (c.kept_of_clean st) fun st' hst' => .after fun texts => ?_
  obtain ⟨hviolations, hfindings⟩ := hst'
  dsimp only
  split
  · exact .pure ⟨[], [], [], by simp [hviolations], forall_mem_nil _, by simp [hfindings], fun _ => rfl⟩
  · refine .bind (c.isKnown_of_ask scripts) fun new hnew => ?_
    refine .bind (.lift fun counted h => h) fun counted hcounted => .pure ?_
    refine ⟨new, texts, counted, by rw [hviolations], hnew, by rw [hfindings], fun hnil => ?_⟩
    rwa [hviolations, hnil, nil_append] at hcounted

theorem extends_of_finalize {c : Config} (hbatch : c.batch = true) (st : State) :
    Gives (fun p => c.Extends st p.1) (c.finalize st) := by
  unfold finalize
  rw [if_pos hbatch]
  split
  · exact .pure (Extends.refl c st)
  · exact .bind (c.extends_of_checkScripts st _) fun p hp => .pure hp

/-- The violations of a known category make a group. -/
theorem exists_group {c : Config} {groups : List Group} (h : c.grouped vs = .ok groups)
    (hv : v ∈ vs) (hknown : v.IsKnown) :
    ∃ g ∈ groups, c.shownKey v.key ++ ": " ++ v.summary ∈ g.messages := by
  obtain ⟨⟨category, name⟩, hmem, hcategory⟩ := mem_map.mp hknown
  have hpresent : (category, name) ∈ categories.filter fun x => vs.any (·.category == x.1) :=
    mem_filter.mpr ⟨hmem, any_eq_true.mpr ⟨v, hv, beq_iff_eq.mpr hcategory.symm⟩⟩
  obtain ⟨g, hg, hfg⟩ := exists_of_mapM_ok h hpresent
  obtain ⟨severity, -, hfg⟩ := bind_eq_ok.mp hfg
  cases hfg
  refine ⟨_, hg, mem_map.mpr ⟨v, mem_filter.mpr ⟨hv, beq_iff_eq.mpr hcategory.symm⟩, rfl⟩⟩

theorem message_infix_line (c : Config) (v : Violation) :
    v.message <:+: "      • " ++ (c.shownKey v.key ++ ": " ++ v.summary) :=
  ⟨"      • " ++ (c.shownKey v.key ++ ": ") ++ ("Line " ++ intText v.line ++ ": "), " (" ++ v.code ++ ")", by
    simp [Violation.summary, append_assoc]⟩

theorem message_of_format {c : Config} {formatted : Option Formatted}
    (h : c.format vs = .ok formatted) (hv : v ∈ vs) (hknown : v.IsKnown) :
    ∃ text, (formatted.bind (·.warnings) = some text ∨ formatted.bind (·.errors) = some text)
      ∧ v.message <:+: text ∧ text ≠ [] := by
  obtain ⟨groups, hgroups, h⟩ := bind_eq_ok.mp h
  obtain ⟨g, hg, hline⟩ := exists_group hgroups hv hknown
  rw [if_neg (by simpa using ne_nil_of_mem hg)] at h
  cases h
  have hjoined (chosen : List Group) (hchosen : g ∈ chosen) : ∃ text,
      joined (chosen.flatMap Group.lines) = some text ∧ v.message <:+: text ∧ text ≠ [] := by
    have hmem : "      • " ++ (c.shownKey v.key ++ ": " ++ v.summary) ∈ chosen.flatMap Group.lines :=
      mem_flatMap.mpr ⟨g, hchosen, mem_cons_of_mem _ (mem_map_of_mem hline)⟩
    have hinfix := Text.infix_join hmem "\n"
    refine ⟨_, if_neg (by simpa using ne_nil_of_mem hmem), (message_infix_line c v).trans hinfix, fun hnil => ?_⟩
    rw [hnil, infix_nil] at hinfix
    simp [Text.ofString] at hinfix
  by_cases herror : g.severity.equals (.str "error") = true
  · obtain ⟨text, htext, hmessage⟩ := hjoined (groups.filter fun g => g.severity.equals (.str "error"))
      (mem_filter.mpr ⟨hg, herror⟩)
    exact ⟨text, .inr htext, hmessage⟩
  · obtain ⟨text, htext, hmessage⟩ := hjoined (groups.filter fun g => !g.severity.equals (.str "error"))
      (mem_filter.mpr ⟨hg, by simpa using herror⟩)
    exact ⟨text, .inl htext, hmessage⟩

end Config

end ScriptCheck

/-- The texts that rules have put their messages into. -/
def LintResults.custom (r : LintResults) : List (Text × Text) := r.customWarnings ++ r.customErrors

theorem LintResults.custom_subset_of_add {r r' : LintResults}
    (h : r.add timing rule = .ok r') : r.custom ⊆ r'.custom := by
  obtain ⟨formatted, -, h⟩ := bind_eq_ok.mp h
  cases h
  intro x hx
  obtain hx | hx := mem_append.mp hx
  · exact mem_append_left _ (mem_append_left _ hx)
  · exact mem_append_right _ (mem_append_left _ hx)

theorem LintResults.message_of_add {r r' : LintResults} {c : Config}
    {st : State} (h : r.add timing rule = .ok r') (hcheck : rule.check = .scripts c st)
    {v : Violation} (hv : v ∈ st.violations) (hknown : v.IsKnown) :
    ∃ text, (rule.name, text) ∈ r'.custom ∧ v.message <:+: text := by
  obtain ⟨formatted, hformat, h⟩ := bind_eq_ok.mp h
  cases h
  rw [Rule.format, hcheck] at hformat
  obtain ⟨text, htext, hmessage, hne⟩ := Config.message_of_format hformat hv hknown
  have hfield {found : Option Text} (hfound : found = some text) : (rule.name, text) ∈ textField rule.name found := by
    rw [hfound, textField, if_neg (by simpa using hne)]
    exact mem_singleton_self _
  refine ⟨text, ?_, hmessage⟩
  obtain htext | htext := htext
  · exact mem_append_left _ (mem_append_right _ (hfield htext))
  · exact mem_append_right _ (mem_append_right _ (hfield htext))

/-- What a rule that checks the scripts of all files together has after the last file: new violations, whose messages
stand in a text of the rule, and plain findings that do not hold them. -/
def Rule.Records (r : LintResults) (rule rule' : Rule) : Prop :=
  ∀ c st, rule.check = .scripts c st → c.batch = true →
    ∃ (st' : ScriptCheck.State) (new : List ScriptCheck.Violation) (texts : List (Text × Text))
      (counted : List Severity), rule'.check = .scripts c st' ∧ st'.violations = st.violations ++ new
      ∧ (∀ v ∈ new, ∃ text, (rule'.name, text) ∈ r.custom ∧ v.message <:+: text)
      ∧ rule'.findings = st.findings ++ texts.flatMap (fun t => c.checkIndent t.1 t.2) ++ counted.map (⟨·, ""⟩)
      ∧ (st.violations = [] → counted.length = new.length)

theorem Rule.Records.mono {r r' : LintResults} (hsubset : r.custom ⊆ r'.custom)
    (h : rule.Records r rule') : rule.Records r' rule' := by
  intro c st hcheck hbatch
  obtain ⟨st', new, texts, counted, hcheck', hviolations, hnew, hrest⟩ := h c st hcheck hbatch
  refine ⟨st', new, texts, counted, hcheck', hviolations, fun v hv => ?_, hrest⟩
  obtain ⟨text, htext, hmessage⟩ := hnew v hv
  exact ⟨text, hsubset htext, hmessage⟩

theorem Rule.extends_of_finalize (rule : Rule) : Gives (fun p => ∀ c st, rule.check = .scripts c st → c.batch = true →
      ∃ st', p.1.check = .scripts c st' ∧ p.1.findings = st'.findings ∧ c.Extends st st') rule.finalize := by
  unfold finalize
  cases hcheck : rule.check with
  | scripts c st =>
    by_cases hbatch : c.batch = true
    · refine .bind (Config.extends_of_finalize hbatch st) fun p hp => .pure ?_
      rintro c' st' heq -
      cases heq
      exact ⟨p.1, rfl, rfl, hp⟩
    · refine .after fun p => .pure ?_
      rintro c' st' heq hbatch'
      cases heq
      exact absurd hbatch' hbatch
  | unused c complete => cases complete <;> exact .pure fun c st heq => nomatch heq
  | _ => exact .pure fun c st heq => nomatch heq

theorem Rule.records_of_add {r r' : LintResults} (hrule : ∀ c st, rule.check = .scripts c st → c.batch = true →
      ∃ st', rule'.check = .scripts c st' ∧ rule'.findings = st'.findings ∧ c.Extends st st')
    (h : r.add timing rule' = .ok r') : rule.Records r' rule' := by
  intro c st hcheck hbatch
  obtain ⟨st', hcheck', hfindings, hextends⟩ := hrule c st hcheck hbatch
  obtain ⟨new, texts, counted, hviolations, hknown, hfound, hcounted⟩ := hextends
  refine ⟨st', new, texts, counted, hcheck', hviolations, fun v hv => ?_, hfindings.trans hfound, fun hnil =>
    (mapM_eq_ok_iff.mp (hcounted hnil)).length_eq.symm⟩
  exact LintResults.message_of_add h hcheck' (hviolations ▸ mem_append_right _ hv) (hknown v hv)

theorem Engine.records_of_finishRules (timing : Bool) (rules : List Rule) (e : Engine) (results : LintResults) :
    Gives (fun p => ∃ rules', p.1.rules = e.rules ++ rules' ∧ results.custom ⊆ p.2.custom
      ∧ Forall₂ (Rule.Records p.2) rules rules') (finishRules timing rules e results) := by
  induction rules generalizing e results with
  | nil => exact .pure ⟨[], (append_nil _).symm, Subset.refl _, .nil⟩
  | cons rule rules ih =>
    rw [finishRules]
    split
    · next hfinish =>
      have hnone (r : LintResults) : rule.Records r rule := fun c st hcheck => by
        rw [Rule.hasFinish, hcheck] at hfinish
        cases hfinish
      refine fun w p w' hrun => ?_
      obtain ⟨rules', hrules, hcustom, hrecords⟩ := ih _ _ hrun
      refine ⟨rule :: rules', ?_, hcustom, .cons (hnone _) hrecords⟩
      rw [hrules, append_assoc, singleton_append]
    · refine .bind rule.extends_of_finalize fun x hrule => ?_
      obtain ⟨rule', formatted⟩ := x
      refine .bind (.lift fun results' h => h) fun results' hadd => ?_
      have hown := Rule.records_of_add hrule hadd
      refine fun w p w' hrun => ?_
      obtain ⟨rules', hrules, hcustom, hrecords⟩ := ih _ _ hrun
      refine ⟨rule' :: rules', ?_, ?_, .cons (hown.mono hcustom) hrecords⟩
      · rw [hrules, append_assoc, singleton_append]
      · exact Subset.trans (LintResults.custom_subset_of_add hadd) hcustom

theorem Run.records_of_finish {o : FileRun.Options} {count : Nat} {p p' : Progress} {r : LintResults} {w w' : Workspace}
    (h : runIn w (finish o count p) = (.ok (p', some r), w')) :
    Forall₂ (Rule.Records r) p.engine.rules p'.engine.rules := by
  rw [finish] at h
  split at h
  · cases h
  · obtain ⟨⟨e, r'⟩, v, hfinalize, h⟩ := runIn_bind_eq_ok.mp h
    obtain ⟨⟨⟩, v', -, h⟩ := runIn_bind_eq_ok.mp h
    cases h
    obtain ⟨rules', hrules, -, hrecords⟩ := Engine.records_of_finishRules _ _ _ _ hfinalize
    exact hrules ▸ hrecords

/-! ## What a run prints -/

namespace Run

/-- **What a run prints does not depend on the messages that are found after the last file.** If each violation is
altered as soon as it is read, its category apart, the run is the same up to its results file: the same is printed,
the same files are there and the same is counted; and without a results file the whole run is the same. The messages
are recorded and put into texts of their rule, but the plain findings that are printed are empty. -/
theorem batch_messages_not_printed {program : Text} {args : List Text} {o : Options}
    (hargs : Options.read args = .ok o) (hmode : o.generateWhitelist.isEmpty = true)
    {alter : ScriptCheck.Violation → ScriptCheck.Violation} (halter : ∀ v, (alter v).category = v.category) :
    Session.Lockstep Agrees (found o) (foundWith (ScriptCheck.Config.askAltered alter) o)
      ∧ (o.resultsOutput = none → command program args = lintWith (ScriptCheck.Config.askAltered alter) o)
      ∧ ∀ count p p' r w w', Session.runIn w (finish o.each count p) = (.ok (p', some r), w') →
        List.Forall₂ (Rule.Records r) p.engine.rules p'.engine.rules := by
  have hask := ScriptCheck.Config.ask_lockstep halter
  refine ⟨found_lockstep hask o, fun hresults => ?_, fun _ _ _ _ _ _ => records_of_finish⟩
  rw [command_of_lint hargs hmode]
  exact lint_eq_lintWith hask hresults

/-- Whether a run prints the message of every violation that is recorded after the last file. -/
def ShowsMessages (w : Workspace) (program : Text) (args : List Text) : Prop :=
  ∀ o c p p' last v v', Options.read args = .ok o → Session.runIn w (checked o) = (.ok (c, p), v) →
    Session.runIn v (finish o.each c.chosen.length p) = (.ok (p', last), v') →
    ∀ rule ∈ p'.engine.rules, ∀ config st, rule.check = .scripts config st → config.batch = true →
      ∀ x ∈ st.violations, x.message <:+: (Session.runIn w (command program args)).2.out

/-- A view with a script, a rule that checks all scripts together, and a script checker that finds something. -/
def oneMessage : Workspace where
  store := ⟨[([Text.ofString "rule_config.json"],
      .file "\x7b\"PylintScriptRule\": \x7b\"kwargs\": \x7b\"batch_mode\": true\x7d\x7d\x7d" (.ofInt 60)),
    ([Text.ofString "view.json"],
      .file ("\x7b\"a\": \x7b\"scripts\": \x7b\"messageHandlers\": [\x7b\"messageType\": \"m\", \"script\": \"\\ty\""
        ++ "\x7d]\x7d\x7d\x7d") (.ofInt 60))]⟩
  cwd := []
  replies := [.output "draft.py:11:0: E0602: Undefined variable 'y' (undefined-variable)\n"]

def argsMessage : List Text := ["view.json"]

def optionsMessage : Options := { filenames := ["view.json"] }

theorem read_argsMessage : Options.read argsMessage = .ok optionsMessage := by rfl

/-- Whether a rule has recorded a violation whose message is not in a text. -/
def hides (out : Text) (rule : Rule) : Bool :=
  match rule.check with
  | .scripts c st => c.batch && st.violations.any fun v => !Text.holds out v.message
  | _ => false

/-- A run that looks back at what it has printed: whether there were results after the last file, and whether a rule
has a message that is not among what is printed. -/
theorem exists_hidden_oneMessage : ∃ c p p' r v v', runIn oneMessage (checked optionsMessage) = (.ok (c, p), v) ∧
      runIn v (finish optionsMessage.each c.chosen.length p) = (.ok (p', some r), v') ∧
      ∃ rule ∈ p'.engine.rules, hides (runIn oneMessage (command "lint" argsMessage)).2.out rule = true := by
  have hrun : ∃ cp v, runIn oneMessage (checked optionsMessage) = (.ok cp, v) ∧
      ∃ pr v', runIn v (finish optionsMessage.each cp.1.chosen.length cp.2) = (.ok pr, v') ∧ pr.2.isSome ∧
      ∃ rule ∈ pr.1.engine.rules, hides (runIn oneMessage (command "lint" argsMessage)).2.out rule = true := by
    decide +kernel
  obtain ⟨⟨c, p⟩, v, hchecked, ⟨p', last⟩, v', hfinish, hlast, hhidden⟩ := hrun
  obtain ⟨r, rfl⟩ := Option.isSome_iff_exists.mp hlast
  exact ⟨c, p, p', r, v, v', hchecked, hfinish, hhidden⟩

/-- The script checker finds an undefined variable, and nothing of it is printed. -/
theorem batch_message_lost : ¬ ShowsMessages oneMessage "lint" argsMessage := by
  intro hshows
  obtain ⟨c, p, p', r, v, v', hchecked, hfinish, rule, hrule, hhides⟩ := exists_hidden_oneMessage
  have hshown := hshows _ _ _ _ _ _ _ read_argsMessage hchecked hfinish rule hrule
  rw [hides] at hhides
  split at hhides
  · next config st hcheck =>
    obtain ⟨hbatch, hany⟩ := Bool.and_eq_true_iff.mp hhides
    obtain ⟨x, hx, hlost⟩ := any_eq_true.mp hany
    have hholds := Text.holds_iff_isInfix.mpr (hshown config st hcheck hbatch x hx)
    rw [hholds] at hlost
    cases hlost
  · cases hhides

/-- The same run with all messages erased. -/
theorem batch_messages_not_printed_oneMessage :
    Options.read argsMessage = .ok optionsMessage ∧ optionsMessage.generateWhitelist.isEmpty = true ∧
      optionsMessage.resultsOutput = none ∧
      command "lint" argsMessage =
        lintWith (ScriptCheck.Config.askAltered fun v => { v with message := "" }) optionsMessage ∧
      ∃ c p p' r v v', Session.runIn oneMessage (checked optionsMessage) = (.ok (c, p), v) ∧
        Session.runIn v (finish optionsMessage.each c.chosen.length p) = (.ok (p', some r), v') ∧
        List.Forall₂ (Rule.Records r) p.engine.rules p'.engine.rules := by
  obtain ⟨-, hcommand, hrecords⟩ := @batch_messages_not_printed "lint" _ _ read_argsMessage rfl
    (fun v => { v with message := "" }) fun _ => rfl
  obtain ⟨c, p, p', r, v, v', hchecked, hfinish, -⟩ := exists_hidden_oneMessage
  exact ⟨read_argsMessage, rfl, rfl, hcommand rfl, c, p, p', r, v, v', hchecked, hfinish,
    hrecords _ _ _ _ _ _ hfinish⟩

end Run

end ViewLint
