import ViewLint.Proofs.UnusedProperties

/-!
# What counts as a reference to a property

A text that spells a property of the view out counts only if the name is an identifier and the text holds the full
name; the short form never counts. A property of a component is known by the last step before `custom` and by its
name, so that of several properties that share both only the last one can be reported.

* **`UnusedProperty.reported_iff_unspelled`**: the verdict on a property of the view.
* **`UnusedProperty.reported_once_iff`**: the verdict on a property of a component that nothing mentions.
-/

namespace ViewLint

open List Option Text Model

namespace UnusedProperty

variable {full path name : Text} {n : Node} {flat : Flat} {m : Model}

/-! ## The last step of a name -/

theorem exists_afterLast {mark : Text} (h : mark <:+: full) : ∃ a, full = a ++ mark ++ afterLast mark full := by
  obtain ⟨a, b, rfl⟩ := h
  obtain ⟨⟨x, y⟩, hcut⟩ := isSome_iff_exists.mp (rcut?_isSome mark a b)
  refine ⟨x, (rcut?_eq_some hcut).trans ?_⟩
  rw [afterLast, hcut]
  rfl

/-- All names of a property end in the same step. -/
theorem last_of_mem_aliases {u : Text} (hname : .char '.' ∉ name) (h : .char '.' :: name <:+ full)
    (hu : u ∈ aliases full) : .char '.' :: name <:+ u := by
  have hopen (mark : Text) {start : Text} (hin : mark ++ [.char '.'] <:+: full) (hstart : ("." : Text) <:+ start) :
      .char '.' :: name <:+ start ++ afterLast (mark ++ [.char '.']) full := by
    obtain ⟨a, ha⟩ := exists_afterLast hin
    generalize afterLast (mark ++ [.char '.']) full = r at ha
    rw [ha] at h
    have hsplit : a ++ (mark ++ [.char '.']) ++ r = a ++ mark ++ .char '.' :: r := by simp
    exact (stop_suffix hname (hsplit ▸ h)).trans (last_append hstart r)
  simp only [aliases, mem_cons, mem_append] at hu
  obtain rfl | hu | hu := hu
  · exact h
  · obtain ⟨htest, hu⟩ := mem_ite_nil_right.mp hu
    rw [mem_singleton.mp hu]
    exact hopen (ofString ".custom") (holds_iff_isInfix.mp ((Bool.and_eq_true _ _).mp htest).1) (by decide)
  · obtain ⟨htest, hu⟩ := mem_ite_nil_right.mp hu
    rw [mem_singleton.mp hu]
    exact hopen (ofString "view.params") ( isPrefixOf_iff_prefix.mp htest).isInfix (by decide)

/-! ## Properties of the view that a text spells out -/

theorem not_mem_inTexts_openNames (l : Level) {u : Text} {defined : List Text} (hname : .char '.' ∉ name)
    (hu : u ∈ l.openNames name) : u ∉ inTexts flat defined := by
  intro h
  cases l with
  | custom => cases hu
  | params =>
    obtain rfl := mem_singleton.mp hu
    obtain ⟨-, -, start, ident, hfull, hident, -, hstart⟩ := of_mem_inTexts h
    have hparams : start ++ ident = ofString "*.params" ++ .char '.' :: name := by simp [← hfull, ofString]
    have hend : ∃ front, start = front ++ [.char '.'] ∧ ((".custom" : Text) <:+ front ∨ front = "view.params") := by
      obtain ⟨a, rfl⟩ | rfl := hstart
      · exact ⟨a ++ ".custom", by simp [ofString], .inl (suffix_append a _)⟩
      · exact ⟨_, rfl, .inr rfl⟩
    obtain ⟨front, rfl, hfront⟩ := hend
    rw [append_assoc] at hparams
    obtain ⟨rfl, -⟩ := append_cons_inj_right (not_mem_of_ident? hident (by decide)) hname hparams
    revert hfront
    decide

/-- **The verdict on a property of the view.** A node refers to it, or a text of the view holds its full name, which
counts only if the name is an identifier. -/
theorem reported_iff_unspelled (settings : Json) (c : Config) (flat : Flat) (m : Model) (findings : List Finding)
    (l : Level) (name : Text) (hc : create settings = .ok c) (hm : Model.build flat = .ok m)
    (hcheck : c.check flat m.offered = .ok findings) (hname : .char '.' ∉ name) :
    message (l.viewStart ++ name) (l.start ++ name) ∈ findings.map (·.message) ↔
      (l.viewStart ++ name, l.start ++ name) ∈ definitions m ∧
        (∀ u ∈ (l.viewStart ++ name) :: l.openNames name, ∀ n ∈ m.offered, u ∉ refers n) ∧
          (ident? name = some name → ∀ t ∈ flat.filterMap (·.2.str?), ¬ l.viewStart ++ name <:+: t) := by
  obtain ⟨-, rfl⟩ := (check_eq_ok_iff hc hm).mp hcheck
  have hdefinition := l.definition?_start hname
  rw [message_mem_iff hm (last_of_definition? hdefinition) (fun full hfull => Option.some.inj (hfull.symm.trans hdefinition)),
    l.aliases_viewStart hname]
  refine and_congr_right fun hdefined => ?_
  have hkey : l.viewStart ++ name ∈ Fields.keys (definitions m) := mem_map.mpr ⟨_, hdefined, rfl⟩
  have htexts : l.viewStart ++ name ∈ inTexts flat (Fields.keys (definitions m)) ↔ _ := l.mem_inTexts_iff hname hkey
  simp only [surveyOf, mem_append, not_or, mem_flatMap, not_exists, not_and, forall_mem_cons, htexts]
  constructor
  · rintro ⟨⟨hnodes, hspelled⟩, hopen⟩
    exact ⟨⟨hnodes, fun u hu => (hopen u hu).1⟩, hspelled⟩
  · rintro ⟨⟨hnodes, hopen⟩, hspelled⟩
    exact ⟨⟨hnodes, hspelled⟩, fun u hu => ⟨hopen u hu, not_mem_inTexts_openNames l hname hu⟩⟩

/-- A view with a property and a text. -/
def caption (name text : Text) : Flat := [("custom." ++ name, .int 1), ("root.props.text", .str text)]

theorem reported_iff_unspelled_level : ∃ c m findings, create (.object []) = .ok c ∧
    Model.build (caption "level" "at self.view.custom.level") = .ok m ∧
      c.check (caption "level" "at self.view.custom.level") m.offered = .ok findings ∧
        message "view.custom.level" "custom.level" ∉ findings.map (·.message) := by
  obtain ⟨c, hc, m, hm, findings, hcheck, -⟩ : ∃ c, create (.object []) = .ok c ∧
      ∃ m, Model.build (caption "level" "at self.view.custom.level") = .ok m ∧
      ∃ findings, c.check (caption "level" "at self.view.custom.level") m.offered = .ok findings ∧ True := by
    decide +kernel
  refine ⟨c, m, findings, hc, hm, hcheck, fun hreported => ?_⟩
  have hverdict := (reported_iff_unspelled _ c _ m findings .custom "level" hc hm hcheck (by decide)).mp hreported
  exact hverdict.2.2 (by decide) "at self.view.custom.level" (by decide) (by decide)

/-- **A property that a text spells out is reported** if its name is no identifier. -/
theorem reported_though_spelled :
    (∃ spelling ∈ spellings (viewName "tank-level"), spelling <:+: "view.custom.tank-level") ∧
    ∃ c m findings, create (.object []) = .ok c ∧
      Model.build (caption "tank-level" "view.custom.tank-level") = .ok m ∧
        c.check (caption "tank-level" "view.custom.tank-level") m.offered = .ok findings ∧
          complaint "tank-level" ∈ findings.map (·.message) := by
  simp only [exists_and_left]
  decide +kernel

/-! ## Properties of components -/

/-- The full name of a property of a component: the last step before the first `custom`, and the name. -/
def componentName (path name : Text) : Text :=
  afterLast "." (before ".custom." path) ++ ".custom." ++ name

theorem definition?_component (hname : .char '.' ∉ name) {a : Text} (hpath : path = a ++ ".custom." ++ name) :
    definition? path = some full ↔
      full = componentName path name ∧ name ≠ [] ∧ ¬ ("propConfig." : Text) <+: path := by
  have hview : viewStep? path = none := by
    refine eq_none_iff_forall_not_mem.mpr fun full hfull => ?_
    obtain ⟨l, step, hstep, hstart, -⟩ := viewStep?_eq_some_iff.mp hfull
    obtain ⟨front, hfront, hdot⟩ := l.exists_start
    have hsplit : a ++ ".custom" ++ .char '.' :: name = front ++ .char '.' :: step := by
      have heq := hpath.symm.trans hstart
      rw [hfront] at heq
      simpa [ofString] using heq
    rw [← (append_cons_inj_right hname hstep hsplit).1] at hdot
    exact hdot (mem_append_right _ (by decide))
  rw [definition?_eq, hview, none_or, ite_none_left_eq_some, map_eq_some_iff]
  constructor
  · rintro ⟨hconfig, step, hstep, rfl⟩
    obtain ⟨hne, hdot, b, hb⟩ := customStep?_eq_some_iff.mp hstep
    obtain rfl := last_unique hname hdot (hpath ▸ last_custom a name) (hb ▸ last_custom b step)
    exact ⟨rfl, hne, mt isPrefixOf_iff_prefix.mpr hconfig⟩
  · rintro ⟨rfl, hne, hconfig⟩
    exact ⟨mt isPrefixOf_iff_prefix.mp hconfig, name, customStep?_eq_some_iff.mpr ⟨hne, hname, a, hpath⟩, rfl⟩

example : definition? "root.Lamp.custom.state.custom.on" = some "Lamp.custom.on" := by decide +kernel

/-- The last step of a full name stands also in it without the mark of an open component. -/
theorem last_stem (h : .char '.' :: name <:+ full) : .char '.' :: name <:+ stem full := by
  rw [stem, after?]
  split
  · next hstar =>
    obtain ⟨r, rfl⟩ := isPrefixOf_iff_prefix.mp hstar
    obtain heq | h := suffix_cons_iff.mp h
    · exact absurd (cons.inj heq).1 (by decide)
    · exact h
  · exact h

/-- A name is not used if neither a text nor the path of a binding holds its last step. -/
theorem not_mem_used (hm : build flat = .ok m) (hname : .char '.' ∉ name) {u : Text}
    (hlast : .char '.' :: name <:+ u) (htexts : ∀ t ∈ flat.filterMap (·.2.str?), ¬ name <:+: t)
    (hbindings : ∀ b ∈ m.bindings, ¬ name <:+: b.path) : u ∉ (surveyOf flat m).used := by
  intro hused
  have hstem := last_stem hlast
  obtain ⟨t, ht, hin⟩ | ⟨b, hb, howner⟩ := of_mem_used hm (hstem.subset mem_cons_self) hused
  · exact htexts t ht (((suffix_cons _ name).trans hstem).isInfix.trans hin)
  · obtain ⟨step, hstep, hend, hin⟩ := last_of_ownerOf? (of_owned? howner).2
    obtain rfl := last_unique hname hstep hlast hend
    exact hbindings b (bindings_of_build hm ▸ hb) hin

/-- Of the properties with one full name, the last one is kept. -/
theorem mem_definitions_iff_last (hm : build flat = .ok m) {before after : List Node}
    (hsplit : m.properties = before ++ n :: after) (hpublic : isPublic n = true) (hfull : definition? n.path = some full) :
    (full, n.path) ∈ definitions m ↔ ∀ n' ∈ after, isPublic n' = true → definition? n'.path ≠ some full := by
  have hnodup : (m.properties.map (·.path)).Nodup := by
    rw [properties_of_build hm, Flat.map_path_properties, nodup_reverse]
    exact (flat.meets_foldl _ flat).nodup
  rw [hsplit, map_append, map_cons, nodup_append] at hnodup
  have hfresh : ∀ n' ∈ after, n'.path ≠ n.path := fun n' hn' heq =>
    (nodup_cons.mp hnodup.2.1).1 (mem_map.mpr ⟨n', hn', heq⟩)
  have hdefiners : definers m full = before.filter (fun n => isPublic n && definition? n.path == some full) ++
      n :: after.filter fun n => isPublic n && definition? n.path == some full := by
    rw [definers, hsplit, filter_append, filter_cons_of_pos (by simp [hpublic, hfull])]
  have hlater : (∀ n' ∈ after, isPublic n' = true → definition? n'.path ≠ some full) ↔
      after.filter (fun n => isPublic n && definition? n.path == some full) = [] := by
    simp [filter_eq_nil_iff]
  rw [mem_definitions_iff hm, hdefiners, getLast?_append_cons, hlater, map_eq_some_iff]
  constructor
  · rintro ⟨last, hlast, hpath⟩
    by_contra hne
    rw [getLast?_cons_of_ne_nil hne] at hlast
    exact hfresh last (mem_filter.mp (mem_of_getLast? hlast)).1 hpath
  · intro hnil
    exact ⟨n, by rw [hnil, getLast?_singleton], rfl⟩

theorem nodup_messages (hm : Model.build flat = .ok m) (severity : Severity) :
    (((surveyOf flat m).unused.map fun d => (⟨severity, message d.1 d.2⟩ : Finding)).map (·.message)).Nodup := by
  rw [List.map_map]
  have hnodup : (definitions m).Nodup := List.Nodup.of_map _ (Fields.nodup_ofPairs _)
  refine List.Nodup.map_on (fun d hd e he heq => ?_) (hnodup.filter _)
  have hfull {d : Text × Text} (hd : d ∈ (surveyOf flat m).unused) : definition? d.2 = some d.1 :=
    definition?_of_mem_definitions hm (mem_filter.mp hd).1
  have hpath := path_eq_of_message (last_of_definition? (hfull hd)) (last_of_definition? (hfull he)) heq
  have hname := (hfull hd).symm.trans (hpath ▸ hfull he)
  exact Prod.ext (Option.some.inj hname) hpath

/-- **The verdict on a property of a component that nothing mentions.** It is reported once, unless a later property
has the same full name. -/
theorem reported_once_iff (settings : Json) (c : Config) (flat : Flat) (m : Model) (before after : List Node) (n : Node)
    (component name : Text) (hc : create settings = .ok c) (hm : Model.build flat = .ok m)
    (hsources : ∀ n ∈ m.offered, ∀ v ∈ n.source?, isSearchable v = true)
    (hsplit : m.properties = before ++ n :: after) (hpublic : isPublic n = true)
    (hpath : n.path = component ++ ".custom." ++ name) (hname : .char '.' ∉ name)
    (htexts : ∀ t ∈ flat.filterMap (·.2.str?), ¬ name <:+: t) (hbindings : ∀ b ∈ m.bindings, ¬ name <:+: b.path) :
    ∃ findings, c.check flat m.offered = .ok findings ∧
      (findings.map (·.message)).count (message (componentName n.path name) n.path) ≤ 1 ∧
        ((findings.map (·.message)).count (message (componentName n.path name) n.path) = 1 ↔
          name ≠ [] ∧ ¬ ("propConfig." : Text) <+: n.path ∧ ∀ n' ∈ after, isPublic n' = true →
            definition? n'.path ≠ some (componentName n.path name)) := by
  have hnodup := nodup_messages hm c.scope.severity
  refine ⟨_, (check_eq_ok_iff hc hm).mpr ⟨hsources, rfl⟩, nodup_iff_count_le_one.mp hnodup _, ?_⟩
  have hlast : .char '.' :: name <:+ componentName n.path name := last_custom _ name
  have hdefinition {full : Text} : definition? n.path = some full ↔ _ := definition?_component hname hpath
  have hmem := message_mem_iff hm ⟨name, hname, hlast, hpath ▸ last_custom component name⟩
    (fun full hfull => (hdefinition.mp hfull).1) c.scope.severity
  have hunused : ∀ u ∈ aliases (componentName n.path name), u ∉ (surveyOf flat m).used := fun u hu =>
    not_mem_used hm hname (last_of_mem_aliases hname hlast hu) htexts hbindings
  have hkept : (componentName n.path name, n.path) ∈ definitions m ↔ name ≠ [] ∧ ¬ ("propConfig." : Text) <+: n.path ∧
      ∀ n' ∈ after, isPublic n' = true → definition? n'.path ≠ some (componentName n.path name) := by
    constructor
    · intro h
      have hfull := definition?_of_mem_definitions hm h
      obtain ⟨-, hne, hconfig⟩ := hdefinition.mp hfull
      exact ⟨hne, hconfig, (mem_definitions_iff_last hm hsplit hpublic hfull).mp h⟩
    · rintro ⟨hne, hconfig, hlater⟩
      exact (mem_definitions_iff_last hm hsplit hpublic (hdefinition.mpr ⟨rfl, hne, hconfig⟩)).mpr hlater
  rw [← hkept, ← and_iff_left (a := (componentName n.path name, n.path) ∈ definitions m) hunused, ← hmem]
  exact ⟨fun hcount => List.count_pos_iff.mp (hcount ▸ Nat.one_pos), List.count_eq_one_of_mem hnodup⟩

/-- A view with a lamp and a box that holds another lamp. -/
def twoLamps : Flat :=
  [("root.R.meta.name", .str "R"), ("root.R.children[0].Lamp.meta.name", .str "Lamp"),
    ("root.R.children[0].Lamp.custom.on", .int 1), ("root.R.children[1].B.meta.name", .str "B"),
    ("root.R.children[1].B.children[0].Lamp.meta.name", .str "Lamp"),
    ("root.R.children[1].B.children[0].Lamp.custom.on", .int 2)]

def outerLamp : Text := "root.R.children.Lamp"

def innerLamp : Text := "root.R.children.B.children.Lamp"

theorem reported_once_iff_twoLamps : ∃ c m findings, create (.object []) = .ok c ∧ Model.build twoLamps = .ok m ∧
    c.check twoLamps m.offered = .ok findings ∧
      (findings.map (·.message)).count (message "Lamp.custom.on" (innerLamp ++ ".custom." ++ "on")) = 1 := by
  obtain ⟨m, hm, hsources, hbindings, n, hlast, hpublic, hpath⟩ : ∃ m, Model.build twoLamps = .ok m ∧
      (∀ n ∈ m.offered, ∀ v ∈ n.source?, isSearchable v = true) ∧ m.bindings = [] ∧
      ∃ n ∈ m.properties.getLast?, isPublic n = true ∧ n.path = innerLamp ++ ".custom." ++ "on" := by decide +kernel
  obtain ⟨before, hsplit⟩ := getLast?_eq_some_iff.mp hlast
  obtain ⟨findings, hcheck, -, hcount⟩ := reported_once_iff (.object []) _ twoLamps m before [] n innerLamp "on" rfl hm
    hsources hsplit hpublic hpath (by decide) (by decide) (by rw [hbindings]; exact forall_mem_nil _)
  rw [hpath] at hcount
  exact ⟨_, m, findings, rfl, hm, hcheck, hcount.mpr ⟨by decide, by decide, forall_mem_nil _⟩⟩

/-- **A property that nothing mentions goes unreported** if a component elsewhere has the same name and a property of
the same name. -/
theorem not_reported_twoLamps : (∀ t ∈ twoLamps.filterMap (·.2.str?), ¬ ("on" : Text) <:+: t) ∧
    ∃ c m findings, create (.object []) = .ok c ∧ Model.build twoLamps = .ok m ∧ m.bindings.isEmpty = true ∧
      (∃ n ∈ m.properties, isPublic n = true ∧ n.path = outerLamp ++ ".custom." ++ "on") ∧
        c.check twoLamps m.offered = .ok findings ∧
          message "Lamp.custom.on" (outerLamp ++ ".custom." ++ "on") ∉ findings.map (·.message) := by
  simp only [exists_and_left]
  decide +kernel

end UnusedProperty

end ViewLint
