import ViewLint.Proofs.NodeCollections
import ViewLint.Proofs.Occurrences

/-!
# Scripts of events

The script of an event stands below the path of the event, at `script` or at `config.script`. The path of the event
is what stands before the first such ending of the key, so a step of the path that looks like one misleads.

* `Flat.ReadsAs`, **`Flat.eventPath?_eq_some_iff`**: the keys that are read as the script of an event.
* **`Flat.readsAs_key_iff`**: the events whose key is read as their script.
* **`Model.event_script_kept_iff`**: when the script of an event is kept.
-/

namespace ViewLint

open List Option Text

/-- Where the script of an event stands below its path. -/
inductive ScriptPlace where
  | direct
  | configured

def ScriptPlace.ending : ScriptPlace → Text
  | direct => ".script"
  | configured => ".config.script"

def eventPath (owner domain type : Text) : Text := owner ++ ".events." ++ domain ++ "." ++ type

/-- The key of a script is taken for what it is: the path of its event holds nothing that looks like the end of
such a key. -/
def ScriptPlace.Shows (place : ScriptPlace) (owner domain type : Text) : Prop :=
  match place with
  | direct => ¬ ".script" <:+: owner ∧ ¬ "script" <+: domain ∧ ¬ "script" <+: type ∧ type ≠ "config"
  | configured => ¬ ".config.script" <:+: owner ∧ ¬ (domain = "config" ∧ "script" <+: type)

instance (place : ScriptPlace) (owner domain type : Text) : Decidable (place.Shows owner domain type) := by
  cases place <;> (unfold ScriptPlace.Shows; infer_instance)

namespace Flat

/-- A key is read as the script of the event at a path. -/
def ReadsAs (key path : Text) : Prop :=
  (path ++ ".config.script" : Text) <+: key ∧ ¬ ".config.script" <:+: path ∨
    (path ++ ".script" : Text) <+: key ∧ ¬ ".script" <:+: path ∧ ".script" <:+ key ∧ ¬ ".config.script" <:+: key

instance (key path : Text) : Decidable (ReadsAs key path) := by unfold ReadsAs; infer_instance

/-! ## The path of an event -/

def eventPath? (key : Text) : Option Text :=
  if holds key ".events." then
    if holds key ".config.script" then some (before ".config.script" key)
    else if endsWith key ".script" then some (before ".script" key)
    else none
  else none

def handlerAt? (flat : Flat) (path : Text) (text : Json) : Option Node :=
  (eventOf? path).map fun (domain, type) =>
    ⟨path, .script ⟨text, .eventHandler (.str domain) type (flat.valueAt path "scope" (.str "L"))⟩⟩

theorem eventHandlers_eq (flat : Flat) :
    flat.eventHandlers = flat.filterMap fun e => (eventPath? e.1).bind fun path => flat.handlerAt? path e.2 := by
  refine filterMap_congr fun e _ => ?_
  obtain ⟨key, text⟩ := e
  cases hevents : holds key ".events." with
  | true =>
    simp only [eventPath?, hevents, if_true]
    rfl
  | false =>
    simp only [eventPath?, hevents, Bool.false_eq_true, if_false]
    rfl

theorem eventPath?_eq_some_iff {key path : Text} (hevents : ".events." <:+: path) :
    eventPath? key = some path ↔ ReadsAs key path := by
  have hconfig {a : Text} (h : holds key ".config.script" = true) :=
    before_eq_iff (a := a) (by decide) (by decide) h
  have hscript {a : Text} (h : holds key ".script" = true) :=
    before_eq_iff (a := a) (by decide) (by decide) h
  constructor
  · intro h
    rw [eventPath?] at h
    split at h
    · split at h
      · next hholds => exact .inl ((hconfig hholds).mp (some.inj h))
      · next hnone =>
        split at h
        · next hends =>
          have hend : ".script" <:+ key := isSuffixOf_iff_suffix.mp hends
          obtain ⟨hstart, hfirst⟩ := (hscript (holds_iff_isInfix.mpr hend.isInfix)).mp (some.inj h)
          exact .inr ⟨hstart, hfirst, hend, fun hin => hnone (holds_iff_isInfix.mpr hin)⟩
        · cases h
    · cases h
  · -- What follows the path is found in the key, and so is the path
    have hfound {ending : Text} (h : path ++ ending <+: key) :
        holds key ".events." = true ∧ holds key ending = true :=
      ⟨holds_iff_isInfix.mpr (hevents.trans ((prefix_append path ending).trans h).isInfix),
        holds_iff_isInfix.mpr ((suffix_append path ending).isInfix.trans h.isInfix)⟩
    rintro (⟨hstart, hfirst⟩ | ⟨hstart, hfirst, hend, hnone⟩)
    · obtain ⟨hevents, hholds⟩ := hfound hstart
      rw [eventPath?, if_pos hevents, if_pos hholds, (hconfig hholds).mpr ⟨hstart, hfirst⟩]
    · obtain ⟨hevents, hholds⟩ := hfound hstart
      have hends : endsWith key ".script" = true := isSuffixOf_iff_suffix.mpr hend
      rw [eventPath?, if_pos hevents, if_neg fun h => hnone (holds_iff_isInfix.mp h), if_pos hends,
        (hscript hholds).mpr ⟨hstart, hfirst⟩]

section Event

variable {owner domain type : Text}

theorem eventPath_eq (owner domain type : Text) : eventPath owner domain type =
    owner ++ .char '.' :: (ofString "events" ++ .char '.' :: (domain ++ .char '.' :: type)) := by
  simp only [eventPath, append_assoc]
  rfl

variable (hdomain : .char '.' ∉ domain) (htype : .char '.' ∉ type)

include hdomain htype

theorem eventOf?_eventPath : eventOf? (eventPath owner domain type) =
    if domain = [] ∨ type = [] then none else some (domain, type) := by
  have hsteps : splitOn "." (eventPath owner domain type) =
      splitOn "." owner ++ [ofString "events", domain, type] := by
    have hstop : Text.splitOn "." = Text.splitOn [.char '.'] := rfl
    rw [hstop, eventPath_eq, splitOn_append_stop, splitOn_append_stop, splitOn_append_stop,
      splitOn_of_not_mem hdomain, splitOn_of_not_mem htype,
      splitOn_of_not_mem (s := ofString "events") (by decide)]
    rfl
  obtain ⟨last, before, hlast⟩ := exists_cons_of_ne_nil (reverse_ne_nil_iff.mpr (splitOn_ne_nil "." owner))
  rw [eventOf?, hsteps, reverse_append, hlast]
  simp [or_comm]

theorem script_infix_eventPath : ".script" <:+: eventPath owner domain type ↔
    ".script" <:+: owner ∨ "script" <+: domain ∨ "script" <+: type := by
  have hscript : .char '.' ∉ ofString "script" := by decide
  have hword : ofString ".script" = .char '.' :: ofString "script" := rfl
  have hevents : ¬ .char '.' :: ofString "script" <:+: .char '.' :: ofString "events" := by decide
  rw [hword, eventPath_eq, infix_append_stop hscript, ← cons_append, infix_append_stop hscript,
    ← cons_append, infix_append_stop hscript, infix_stop_iff hdomain, infix_stop_iff htype]
  simp only [hevents, false_or]

theorem config_script_infix_eventPath : ".config.script" <:+: eventPath owner domain type ↔
    ".config.script" <:+: owner ∨ domain = "config" ∧ "script" <+: type := by
  have hconfig : .char '.' ∉ ofString "config" := by decide
  have hscript : .char '.' ∉ ofString "script" := by decide
  have hwords : ofString ".config.script" = .char '.' :: (ofString "config" ++ .char '.' :: ofString "script") := rfl
  have hevents : ¬ ofString "script" <+: ofString "events" ∧
      ¬ ofString ".config.script" <:+: .char '.' :: ofString "events" ∧
      ¬ .char '.' :: ofString "config" <:+ .char '.' :: ofString "events" := by decide
  -- One stop is not enough for two words
  have hone {step : Text} (hstep : .char '.' ∉ step) : ¬ ofString ".config.script" <:+: .char '.' :: step := by
    rw [hwords, infix_stop_iff hstep]
    exact fun h => hstep (h.subset (by simp))
  have hlast : .char '.' :: ofString "config" <:+ .char '.' :: domain ↔ domain = ofString "config" :=
    (suffix_append_stop_iff (p := []) hconfig hdomain).trans eq_comm
  have hsplit {p r : Text} := infix_append_stop_two (p := p) (r := r) hconfig hscript
  rw [← hwords] at hsplit
  have hinner : ofString ".config.script" <:+: .char '.' :: (domain ++ .char '.' :: type) ↔
      domain = ofString "config" ∧ ofString "script" <+: type := by
    rw [← cons_append, hsplit, hlast]
    simp only [hone hdomain, hone htype, false_or, or_false]
  have houter : ofString ".config.script" <:+:
      .char '.' :: (ofString "events" ++ .char '.' :: (domain ++ .char '.' :: type)) ↔
        domain = ofString "config" ∧ ofString "script" <+: type := by
    rw [← cons_append, hsplit, hinner]
    simp only [hevents, false_and, false_or]
  rw [eventPath_eq, hsplit, houter, prefix_append_stop hscript]
  simp only [hevents, and_false, false_or]

theorem readsAs_key_iff (place : ScriptPlace) :
    ReadsAs (eventPath owner domain type ++ place.ending) (eventPath owner domain type) ↔
      place.Shows owner domain type := by
  have hscript : ofString ".script" <:+: eventPath owner domain type ↔ _ := script_infix_eventPath hdomain htype
  have hconfig : ofString ".config.script" <:+: eventPath owner domain type ↔ _ :=
    config_script_infix_eventPath hdomain htype
  cases place with
  | direct =>
    have hshort : ¬ ofString ".config.script" <+: ofString ".script" ∧
      ¬ ofString ".config.script" <:+: ofString ".script" := by decide
    -- The last step of the path may make the other ending of the key
    have hkey : ofString ".config.script" <:+: eventPath owner domain type ++ ofString ".script" ↔
        ofString ".config.script" <:+: eventPath owner domain type ∨ type = ofString "config" := by
      have hconfig : .char '.' ∉ ofString "config" := by decide
      have hlast : .char '.' :: ofString "config" <:+ eventPath owner domain type ↔
          ofString "config" = type := by
        have hpath : eventPath owner domain type = (owner ++ ".events." ++ domain) ++ .char '.' :: type := by
          rw [eventPath, append_assoc]
          rfl
        rw [hpath, suffix_append_stop_iff hconfig htype]
      have hsplit := infix_append_stop_two (p := eventPath owner domain type) (r := ofString "script") hconfig
        (show .char '.' ∉ ofString "script" by decide)
      rw [hlast] at hsplit
      refine hsplit.trans (or_congr_right ((or_iff_left hshort.2).trans ?_))
      rw [and_iff_left (prefix_refl _), eq_comm]
    have hpart : ofString ".config.script" <:+: eventPath owner domain type →
        ofString ".script" <:+: eventPath owner domain type :=
      (show ofString ".script" <:+: ofString ".config.script" by decide).trans
    simp only [ReadsAs, ScriptPlace.ending, ScriptPlace.Shows, prefix_append_right_inj, hshort, false_and,
      false_or, prefix_refl, suffix_append, true_and, hkey, not_or]
    rw [← and_assoc, and_iff_left_of_imp (mt hpart), hscript, not_or, not_or, and_assoc, and_assoc]
  | configured =>
    have hfull : ofString ".config.script" <:+: eventPath owner domain type ++ ofString ".config.script" :=
      (suffix_append _ _).isInfix
    simp only [ReadsAs, ScriptPlace.ending, ScriptPlace.Shows, prefix_refl, true_and, hfull, not_true_eq_false,
      and_false, or_false, hconfig, not_or]

/-! ## Handlers -/

def scriptsReadAs (flat : Flat) (path : Text) : List Json := (flat.filter fun e => decide (ReadsAs e.1 path)).map (·.2)

def handler (flat : Flat) (owner domain type : Text) (text : Json) : Node :=
  ⟨eventPath owner domain type, .script ⟨text, .eventHandler (.str domain) type
    (flat.valueAt (eventPath owner domain type) "scope" (.str "L"))⟩⟩

/-- **The handlers of an event are made from the keys that are read as its script.** -/
theorem handlers_of_event (flat : Flat) :
    flat.eventHandlers.filter (·.path == eventPath owner domain type) = if domain = [] ∨ type = [] then []
      else (flat.scriptsReadAs (eventPath owner domain type)).map (flat.handler owner domain type) := by
  have hread (e : Text × Json) : eventPath? e.1 = some (eventPath owner domain type) ↔
      ReadsAs e.1 (eventPath owner domain type) := eventPath?_eq_some_iff ⟨owner, domain ++ "." ++ type, by simp [eventPath]⟩
  have hpath {path : Text} {text : Json} {n : Node} (h : flat.handlerAt? path text = some n) : n.path = path := by
    obtain ⟨event, -, rfl⟩ := map_eq_some_iff.mp h
    rfl
  -- A handler stands at the path that its key is read as
  have hone (e : Text × Json) : (((eventPath? e.1).bind fun path => flat.handlerAt? path e.2).filter fun n =>
      n.path == eventPath owner domain type) =
      if decide (ReadsAs e.1 (eventPath owner domain type)) then flat.handlerAt? (eventPath owner domain type) e.2
      else none := by
    simp only [← hread, decide_eq_true_eq]
    split
    · next h =>
      rw [h, bind_some]
      cases hn : flat.handlerAt? (eventPath owner domain type) e.2 with
      | none => rfl
      | some n => simp [hpath hn]
    · next h =>
      rw [filter_eq_none_iff]
      intro n hn heq
      obtain ⟨path, hkey, hn⟩ := bind_eq_some_iff.mp hn
      rw [beq_iff_eq, hpath hn] at heq
      exact h (heq ▸ hkey)
  rw [eventHandlers_eq, filter_filterMap, filterMap_congr fun e _ => hone e, ← filterMap_filter]
  simp only [handlerAt?, eventOf?_eventPath hdomain htype]
  split
  · simp
  · rw [scriptsReadAs, List.map_map, ← List.filterMap_eq_map]
    rfl

end Event

end Flat

namespace Model

/-! ## Scripts of a model -/

theorem ofKind_of_kind {nodes : List Node} {own : NodeKind} (h : ∀ n ∈ nodes, n.kind = own) (kind : NodeKind) :
    ofKind nodes kind = if own = kind then nodes else [] := by
  split
  · next heq => exact filter_eq_self.mpr fun n hn => beq_iff_eq.mpr ((h n hn).trans heq)
  · next hne => exact filter_eq_nil_iff.mpr fun n hn => by simpa [h n hn] using hne

theorem ofKind_scripts_of_build {flat : Flat} {m : Model} (h : build flat = .ok m) :
    flat.customMethods = .ok (ofKind m.scripts .customMethod) ∧
      ofKind m.scripts .eventHandler = flat.eventHandlers := by
  obtain ⟨methods, hmethods, hm⟩ := bind_eq_ok.mp h
  cases hm
  have htransforms := ofKind_of_kind fun n (hn : n ∈ flat.transformScripts) => by
    obtain ⟨e, -, hn⟩ := mem_flatMap.mp hn
    exact Flat.kind_of_mem_scriptTransforms hn
  have hmessages := ofKind_of_kind fun n (hn : n ∈ flat.messageHandlers) => Flat.kind_of_mem_messageHandlers hn
  have hcustom := ofKind_of_kind fun n (hn : n ∈ methods) => Flat.kind_of_mem_customMethods hmethods hn
  have hevents := ofKind_of_kind fun n (hn : n ∈ flat.eventHandlers) => Flat.kind_of_mem_eventHandlers hn
  have happend (xs ys : List Node) (kind : NodeKind) : ofKind (xs ++ ys) kind = ofKind xs kind ++ ofKind ys kind :=
    filter_append ..
  rw [hmethods]
  simp [happend, htransforms, hmessages, hcustom, hevents]

def handlersAt (m : Model) (path : Text) : List Node := (ofKind m.scripts .eventHandler).filter (·.path == path)

/-- The handlers of an event in the model, if there is one. -/
theorem exists_handlersAt_iff {owner domain type : Text} (hdomain : .char '.' ∉ domain) (htype : .char '.' ∉ type)
    (flat : Flat) (nodes : List Node) :
    (∃ m, build flat = .ok m ∧ m.handlersAt (eventPath owner domain type) = nodes) ↔
      (∃ methods, flat.customMethods = .ok methods) ∧ (if domain = [] ∨ type = [] then []
        else (flat.scriptsReadAs (eventPath owner domain type)).map (flat.handler owner domain type)) = nodes := by
  have hhandlers {m : Model} (h : build flat = .ok m) : m.handlersAt (eventPath owner domain type) =
      if domain = [] ∨ type = [] then []
      else (flat.scriptsReadAs (eventPath owner domain type)).map (flat.handler owner domain type) := by
    rw [handlersAt, (ofKind_scripts_of_build h).2, Flat.handlers_of_event hdomain htype]
  constructor
  · rintro ⟨m, hm, rfl⟩
    exact ⟨⟨_, (ofKind_scripts_of_build hm).1⟩, (hhandlers hm).symm⟩
  · rintro ⟨⟨methods, hmethods⟩, rfl⟩
    have hm : build flat = .ok _ := bind_eq_ok.mpr ⟨methods, hmethods, rfl⟩
    exact ⟨_, hm, hhandlers hm⟩

/-- **When the script of an event is kept.** Whatever script stands at the key of an event, it is the one script of
the one handler of the event, with the scope that stands beside it, just if there is a model at all, the event has a
domain and a type, the key is taken for what it is, and no other key is taken for it. -/
theorem event_script_kept_iff (place : ScriptPlace) (owner domain type : Text) (hdomain : .char '.' ∉ domain)
    (htype : .char '.' ∉ type) (front back : Flat) (flat : Json → Flat)
    (hflat : ∀ v, flat v = front ++ (eventPath owner domain type ++ place.ending, v) :: back) :
    (∀ v, ∃ m, build (flat v) = .ok m ∧ m.handlersAt (eventPath owner domain type) =
      [⟨eventPath owner domain type, .script ⟨v, .eventHandler (.str domain) type
        ((flat v).valueAt (eventPath owner domain type) "scope" (.str "L"))⟩⟩]) ↔
      (∀ v, ∃ methods, (flat v).customMethods = .ok methods) ∧ domain ≠ [] ∧ type ≠ [] ∧
        place.Shows owner domain type ∧ ∀ e ∈ front ++ back, ¬ Flat.ReadsAs e.1 (eventPath owner domain type) := by
  have hread : Flat.ReadsAs (eventPath owner domain type ++ place.ending) (eventPath owner domain type) ↔ _ :=
    Flat.readsAs_key_iff hdomain htype place
  -- The scripts that are read as that of the event; the one at its own key is among them or not
  have hscripts (v : Json) : (flat v).scriptsReadAs (eventPath owner domain type) =
      front.scriptsReadAs (eventPath owner domain type) ++ ((if place.Shows owner domain type then [v] else []) ++
        back.scriptsReadAs (eventPath owner domain type)) := by
    simp only [Flat.scriptsReadAs, hflat, filter_append, filter_cons, hread, map_append]
    split <;> simp_all
  have hothers : (∀ e ∈ front ++ back, ¬ Flat.ReadsAs e.1 (eventPath owner domain type)) ↔
      front.scriptsReadAs (eventPath owner domain type) = [] ∧
        back.scriptsReadAs (eventPath owner domain type) = [] := by
    simp [Flat.scriptsReadAs, or_imp, forall_and]
  have hinjective (v : Json) : Function.Injective ((flat v).handler owner domain type) := by
    intro x y hxy
    injection hxy with _ hscript
    injection hscript with hscript
    exact (Script.mk.inj hscript).1
  have hone (v : Json) : (∃ m, build (flat v) = .ok m ∧ m.handlersAt (eventPath owner domain type) =
      [(flat v).handler owner domain type v]) ↔ _ := exists_handlersAt_iff hdomain htype (flat v) _
  simp only [hothers]
  constructor
  · intro h
    have hboth (v : Json) := (hone v).mp (h v)
    have hnamed : ¬ (domain = [] ∨ type = []) := fun hempty => by
      have hnil := (hboth .null).2
      rw [if_pos hempty] at hnil
      cases hnil
    have hread (v : Json) : (flat v).scriptsReadAs (eventPath owner domain type) = [v] := by
      have hmap := (hboth v).2
      rw [if_neg hnamed] at hmap
      exact map_injective_iff.mpr (hinjective v) hmap
    simp only [hscripts] at hread
    obtain ⟨hd, ht⟩ := not_or.mp hnamed
    refine ⟨fun v => (hboth v).1, hd, ht, ?_⟩
    by_cases hshows : place.Shows owner domain type
    · have hlength := congrArg length (hread .null)
      simp only [if_pos hshows, length_append, length_singleton] at hlength
      exact ⟨hshows, length_eq_zero_iff.mp (by omega), length_eq_zero_iff.mp (by omega)⟩
    · -- The scripts of other keys are the same whatever stands at this one
      simp only [if_neg hshows] at hread
      have hsame := (hread .null).symm.trans (hread (.bool true))
      cases hsame
  · rintro ⟨hmethods, hd, ht, hshows, hfront, hback⟩ v
    refine (hone v).mpr ⟨hmethods v, ?_⟩
    rw [if_neg (not_or.mpr ⟨hd, ht⟩), hscripts, if_pos hshows, hfront, hback]
    rfl

/-- An event of a component whose name starts like the end of a key. -/
def panelEvent : Text := eventPath "root.scriptPanel" "component" "onActionPerformed"

/-- The event with a configured script and a scope. -/
def panelFlat (script : Json) : Flat := [(panelEvent ++ ".config.script", script), (panelEvent ++ ".scope", .str "G")]

/-- A configured script of this event is kept. -/
theorem event_script_kept_scriptPanel : ∃ m, build (panelFlat (.str "print(1)")) = .ok m ∧
    m.handlersAt panelEvent = [⟨panelEvent, .script ⟨.str "print(1)",
      .eventHandler (.str "component") "onActionPerformed" (.str "G")⟩⟩] := by
  have hkeys : ∀ key ∈ [panelEvent ++ ".config.script", panelEvent ++ ".scope"],
      indexAfter? ".scripts.customMethods" key = none := by decide +kernel
  have hmethods (v : Json) : ∃ methods, (panelFlat v).customMethods = .ok methods := by
    refine ⟨[], ?_⟩
    simp only [Flat.customMethods, Flat.methodParts, panelFlat, foldlM_cons, hkeys _ mem_cons_self,
      hkeys _ (mem_cons_of_mem _ mem_cons_self)]
    rfl
  have hscope (v : Json) : (panelFlat v).valueAt panelEvent "scope" (.str "L") = .str "G" := rfl
  rw [← hscope (.str "print(1)")]
  exact (event_script_kept_iff .configured "root.scriptPanel" "component" "onActionPerformed" (by decide) (by decide) []
    [(panelEvent ++ ".scope", .str "G")] panelFlat fun _ => rfl).mpr
    ⟨hmethods, by decide, by decide, by decide +kernel, by decide +kernel⟩ (.str "print(1)")

/-- A direct script of this event is lost. -/
theorem event_script_lost_scriptPanel : ∃ m, build [(panelEvent ++ ".script", .str "print(1)")] = .ok m ∧
    m.scripts = [] := by
  decide +kernel

end Model

end ViewLint
