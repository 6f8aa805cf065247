import ViewLint.Proofs.ReportedProperties

/-!
# Properties with a binding

A binding marks its owner as used, and the owner is read off the path of the binding. That finds a property of the
view, unless its name starts with one of the words at which the path is cut; for a property of a component it finds
a component `propConfig` instead. Bindings of structs and queries are not looked at.

* `UnusedProperty.owned?_config_iff`: when the binding of a property names the property as its owner.
* **`UnusedProperty.bound_reported_iff`**: the verdict on a property with a binding.
-/

namespace ViewLint

open List Option Text

namespace Text

variable {a s u w : Text} {stop : CodePoint}

/-- What ends in a stop and starts a text ends at its last stop or before. -/
theorem prefix_stop_cases (hw : stop ∉ w) (h : u ++ [stop] <+: s ++ stop :: w) : u = s ∨ u ++ [stop] <+: s := by
  obtain h' | h' := prefix_or_prefix_of_prefix h (⟨w, by simp⟩ : s ++ [stop] <+: s ++ stop :: w)
  · exact (prefix_concat_iff.mp h').imp_left append_cancel_right
  · obtain heq | ⟨x, rfl⟩ := prefix_concat_iff.mp h'
    · exact .inl (append_cancel_right heq).symm
    · have hin : x ++ [stop] <+: w := by simpa using h
      exact absurd (hin.subset (by simp)) hw

end Text

namespace UnusedProperty

/-! ## Where properties and their bindings stand -/

/-- The words at which the path of a binding is cut. -/
def cutWords : List Text := ["binding", "persistent", "paramDirection"]

/-- The types of bindings that the rule looks at. -/
def ownerTypes : List Text := ["expression", "expr", "property", "tag"]

/-- The types of bindings that a model has. -/
def boundTypes : List Text := "expr-struct" :: "query" :: ownerTypes

/-- What a property belongs to: the view, or the component at a path. -/
inductive Owner where
  | view (level : Level)
  | component (path : Text)

namespace Owner

def property : Owner → Text → Text
  | view l, name => l.start ++ name
  | component path, name => path ++ ".custom." ++ name

/-- Where the configuration of a property stands. -/
def config : Owner → Text → Text
  | view l, name => "propConfig." ++ (l.start ++ name)
  | component path, name => path ++ ".propConfig" ++ ".custom." ++ name

def full : Owner → Text → Text
  | view l, name => l.viewStart ++ name
  | component path, name => componentName (path ++ ".custom." ++ name) name

/-- Whether the path of a component leads through no properties and no configuration. -/
def IsApart : Owner → Prop
  | view _ => True
  | component path => ∀ word ∈ (["custom", "params", "propConfig"] : List Text),
    ¬ (.char '.' :: word ++ [.char '.']) <:+: .char '.' :: path ++ [.char '.']

/-- Whether the binding of a property marks the property as used. -/
def Credits : Owner → Text → Text → Prop
  | view _, name, type => type ∈ ownerTypes ∧ ∀ word ∈ cutWords, ¬ word <+: name
  | component _, _, _ => False

end Owner

variable {path name type u : Text} {n : Node} {flat : Flat} {m : Model} {o : Owner}

/-! ## The owner of a binding of the view -/

theorem ownerOf?_eq_none (h : .char '.' ∉ withoutBinding path) : ownerOf? path = none := by
  rw [ownerOf?_eq]
  have hview : viewStep? (withoutBinding path) = none := by
    refine eq_none_iff_forall_not_mem.mpr fun full hfull => ?_
    obtain ⟨l, step, -, hpath, -⟩ := viewStep?_eq_some_iff.mp hfull
    exact h (hpath ▸ (l.last_start step).subset mem_cons_self)
  have hcustom : customStep? (withoutBinding path) = none := by
    refine eq_none_iff_forall_not_mem.mpr fun step hstep => ?_
    obtain ⟨-, -, a, hpath⟩ := customStep?_eq_some_iff.mp hstep
    exact h (hpath ▸ (last_custom a step).subset mem_cons_self)
  rw [hview, hcustom]
  rfl

theorem withoutBinding_view (l : Level) (hname : .char '.' ∉ name) :
    (∀ word ∈ cutWords, ¬ word <+: name) ∧ withoutBinding ((Owner.view l).config name) = l.start ++ name ∨
      (∃ word ∈ cutWords, word <+: name) ∧ .char '.' ∉ withoutBinding ((Owner.view l).config name) := by
  obtain ⟨front, hfront, hdot⟩ := l.exists_start
  have hrest : l.start ++ name = front ++ .char '.' :: name := by simp [hfront]
  have hholds (word : Text) (hword : .char '.' ∉ word) :
      holds (l.start ++ name) (.char '.' :: word) = true ↔ word <+: name := by
    rw [holds_iff_isInfix, hrest, infix_append_stop hword, infix_stop_iff hname, or_iff_right_iff_imp]
    exact fun h => absurd (h.subset mem_cons_self) hdot
  have hwords : ∀ word ∈ cutWords, .char '.' ∉ word := by decide
  have hpath : (if startsWith ((Owner.view l).config name) "propConfig." then ((Owner.view l).config name).drop 11
      else (Owner.view l).config name) = l.start ++ name := rfl
  simp only [withoutBinding, hpath]
  split
  · next ending hfind =>
    obtain ⟨word, hword, rfl⟩ := mem_map.mp (mem_of_find?_eq_some hfind : ending ∈ cutWords.map (.char '.' :: ·))
    have hfound := find?_some hfind
    refine .inr ⟨⟨word, hword, (hholds word (hwords word hword)).mp hfound⟩, ?_⟩
    obtain ⟨r, hr⟩ := exists_before hfound
    rw [hrest, append_assoc, cons_append] at hr
    rwa [hrest, eq_of_only_stop hdot hname hr.symm]
  · next hfind =>
    refine .inl ⟨fun word hword hstart => ?_, rfl⟩
    exact find?_eq_none.mp hfind _ (mem_map.mpr ⟨word, hword, rfl⟩ : _ ∈ cutWords.map (.char '.' :: ·))
      ((hholds word (hwords word hword)).mpr hstart)

theorem ownerOf?_view_iff (l : Level) (hname : .char '.' ∉ name) :
    ownerOf? ((Owner.view l).config name) = some u ↔ u = l.viewStart ++ name ∧ ∀ word ∈ cutWords, ¬ word <+: name := by
  obtain ⟨hwords, hcut⟩ | ⟨⟨word, hword, hstart⟩, hcut⟩ := withoutBinding_view l hname
  · rw [ownerOf?_eq, hcut, viewStep?_eq_some_iff.mpr ⟨l, name, hname, rfl, rfl⟩, some_or, some.injEq,
      and_iff_left hwords, eq_comm]
  · rw [ownerOf?_eq_none hcut]
    exact ⟨fun h => (by cases h), fun h => absurd hstart (h.2 word hword)⟩

/-! ## The owner of a binding of a component -/

/-- The only `custom` of a path behind one without it is the one that was added. -/
theorem eq_of_custom_prefix {a : Text} (hname : .char '.' ∉ name)
    (hfree : a ++ ofString ".custom" ≠ path ∧ ¬ a ++ ofString ".custom" ++ [.char '.'] <+: path)
    (h : (a ++ ".custom." : Text) <+: path ++ ".custom." ++ name) : a = path := by
  have hsplit : a ++ ofString ".custom" ++ [.char '.'] <+: path ++ ofString ".custom" ++ .char '.' :: name := by
    simpa [ofString] using h
  obtain heq | h := prefix_stop_cases hname hsplit
  · exact append_cancel_right heq
  · obtain heq | h := prefix_stop_cases (s := path) (w := ofString "custom") (by decide) h
    · exact absurd heq hfree.1
    · exact absurd h hfree.2

theorem prefix_withoutBinding (h : ¬ ("propConfig." : Text) <+: path) : withoutBinding path <+: path := by
  have hstart : ¬ startsWith path "propConfig." = true := mt isPrefixOf_iff_prefix.mp h
  simp only [withoutBinding, if_neg hstart]
  split
  · next ending hfind =>
    obtain ⟨r, hr⟩ := exists_before (find?_some hfind)
    exact ⟨ending ++ r, (hr.trans (append_assoc ..)).symm⟩
  · exact prefix_rfl

theorem of_mem_aliases {full : Text} (h : u ∈ aliases full) : u = full ∨ ("*" : Text) <+: u := by
  simp only [aliases, mem_cons, mem_append, mem_ite_nil_right, not_mem_nil, or_false] at h
  obtain rfl | ⟨-, rfl⟩ | ⟨-, rfl⟩ := h
  · exact .inl rfl
  · exact .inr ⟨_, rfl⟩
  · exact .inr ⟨_, rfl⟩

section Component

variable (hapart : (Owner.component path).IsApart)

include hapart

theorem not_prefix_of_isApart (word : Text) (hword : word ∈ (["custom", "params", "propConfig"] : List Text)) (r : Text) :
    ¬ word ++ [.char '.'] <+: path ++ .char '.' :: r := by
  have hdot : .char '.' ∉ word := by
    revert word
    decide
  intro h
  obtain h | ⟨rfl, -⟩ := (prefix_append_stop_two (u := word) (w := []) hdot not_mem_nil).mp h
  · obtain ⟨r, rfl⟩ := h
    exact hapart word hword ⟨[], r ++ [.char '.'], by simp⟩
  · exact hapart word hword infix_rfl

theorem not_custom_of_isApart (a : Text) :
    a ++ ofString ".custom" ≠ path ∧ ¬ a ++ ofString ".custom" ++ [.char '.'] <+: path := by
  refine ⟨?_, ?_⟩
  · rintro rfl
    exact hapart "custom" (by decide) ⟨.char '.' :: a, [], by simp [ofString]⟩
  · rintro ⟨r, rfl⟩
    exact hapart "custom" (by decide) ⟨.char '.' :: a, r ++ [.char '.'], by simp [ofString]⟩

theorem last_ne_of_isApart : afterLast "." path ≠ "propConfig" := by
  intro hlast
  by_cases hdot : .char '.' ∈ path
  · obtain ⟨a, b, rfl, hb⟩ := exists_last hdot
    have hafter : afterLast "." (a ++ .char '.' :: b) = b := afterLast_append_stop a hb
    rw [hafter] at hlast
    exact hapart "propConfig" (by decide) ⟨.char '.' :: a, [], by simp [hlast]⟩
  · have hnone : rcut? "." path = none := rcut?_eq_none hdot
    rw [afterLast, hnone] at hlast
    exact hapart "propConfig" (by decide) ⟨[], [], by rw [← hlast]; simp⟩

theorem component_full (hname : .char '.' ∉ name) :
    (Owner.component path).full name = afterLast "." path ++ ".custom." ++ name := by
  have hin : (".custom." : Text) <:+: path ++ ".custom." ++ name := ⟨path, name, rfl⟩
  obtain ⟨r, hr⟩ := exists_before (holds_iff_isInfix.mpr hin)
  have hbefore := eq_of_custom_prefix hname (not_custom_of_isApart hapart _) ⟨r, hr.symm⟩
  rw [Owner.full, componentName, hbefore]

/-- The owner of a binding of a component is a property of `propConfig`. -/
theorem ownerOf?_component (hname : .char '.' ∉ name) (h : ownerOf? ((Owner.component path).config name) = some u) :
    ∃ step, .char '.' ∉ step ∧ u = "propConfig.custom." ++ step := by
  have hconfig : (Owner.component path).config name = path ++ .char '.' :: (ofString "propConfig.custom." ++ name) := by
    simp [Owner.config, ofString]
  have hprefix : withoutBinding ((Owner.component path).config name) <+: (Owner.component path).config name := by
    refine prefix_withoutBinding ?_
    rw [hconfig]
    exact not_prefix_of_isApart hapart "propConfig" (by decide) _
  rw [ownerOf?_eq, or_eq_some_iff] at h
  obtain h | ⟨-, h⟩ := h
  · obtain ⟨l, step, -, hstart, -⟩ := viewStep?_eq_some_iff.mp h
    have hlevel : l.start <+: path ++ .char '.' :: (ofString "propConfig.custom." ++ name) :=
      hconfig ▸ (prefix_append _ step).trans (hstart ▸ hprefix)
    cases l with
    | custom => exact absurd hlevel (not_prefix_of_isApart hapart "custom" (by decide) _)
    | params => exact absurd hlevel (not_prefix_of_isApart hapart "params" (by decide) _)
  · obtain ⟨step, hstep, h⟩ := bind_eq_some_iff.mp h
    obtain ⟨-, hdot, a, ha⟩ := customStep?_eq_some_iff.mp hstep
    have hfree : a ++ ofString ".custom" ≠ path ++ ".propConfig" ∧
        ¬ a ++ ofString ".custom" ++ [.char '.'] <+: path ++ ofString ".propConfig" := by
      refine ⟨fun heq => ?_, fun hin => ?_⟩
      · have hlast := (append_cons_inj_right (a := a) (b := path) (r := ofString "custom")
          (s := ofString "propConfig") (by decide) (by decide) heq).2
        exact absurd hlast (by decide)
      · obtain heq | hin := prefix_stop_cases (s := path) (w := ofString "propConfig") (by decide) hin
        · exact (not_custom_of_isApart hapart a).1 heq
        · exact (not_custom_of_isApart hapart a).2 hin
    obtain rfl := eq_of_custom_prefix hname hfree ((prefix_append _ step).trans (ha ▸ hprefix))
    have hbefore : beforeLast ".custom." (withoutBinding ((Owner.component path).config name)) =
        path ++ ".propConfig" := by
      rw [ha, beforeLast, rcut?_custom hdot]
      rfl
    have hafter : afterLast "." (path ++ ".propConfig") = "propConfig" :=
      afterLast_append_stop (t := ofString "propConfig") path (by decide)
    rw [hbefore, hafter] at h
    exact ⟨step, hdot, (some.inj h).symm⟩

theorem not_mem_aliases_component (hname : .char '.' ∉ name)
    (h : ownerOf? ((Owner.component path).config name) = some u) : u ∉ aliases ((Owner.component path).full name) := by
  intro hu
  obtain ⟨step, hstep, rfl⟩ := ownerOf?_component hapart hname h
  obtain heq | ⟨r, hstar⟩ := of_mem_aliases hu
  · rw [component_full hapart hname] at heq
    have hsplit : ofString "propConfig.custom" ++ .char '.' :: step =
        afterLast "." path ++ ".custom" ++ .char '.' :: name := by simpa [ofString] using heq
    obtain ⟨hcomponent, -⟩ := append_cons_inj_right hstep hname hsplit
    have hlast : ofString "propConfig" = afterLast "." path :=
      append_cancel_right (hcomponent : ofString "propConfig" ++ ofString ".custom" = _)
    exact last_ne_of_isApart hapart hlast.symm
  · exact absurd (cons.inj hstar).1 (by decide)

end Component

/-! ## The verdict -/

theorem bindingAt?_of_mem (flat : Flat) (here : Text) (h : type ∈ boundTypes) : ∃ n, flat.bindingAt? here (.str type) = some n ∧
    owned? n = if type ∈ ownerTypes then ownerOf? here else none := by
  simp only [boundTypes, ownerTypes, mem_cons, not_mem_nil, or_false] at h
  obtain rfl | rfl | rfl | rfl | rfl | rfl := h <;> exact ⟨_, rfl, rfl⟩

theorem exists_binding {here : Text} (htype : type ∈ boundTypes) (hbound : (here ++ ".binding.type", .str type) ∈ flat)
    (honly : ∀ e ∈ flat, (here ++ ".binding.type" : Text) <+: e.1 → e.2 = .str type) : ∃ n ∈ flat.bindings,
      flat.bindingAt? here (.str type) = some n ∧ owned? n = if type ∈ ownerTypes then ownerOf? here else none := by
  obtain ⟨n, hn, howned⟩ := bindingAt?_of_mem flat here htype
  have hget : Fields.get? flat.bindingTypes here = some (.str type) := by
    rw [Flat.get?_bindingTypes]
    have hat : Flat.isTypeAt here (here ++ ".binding.type") = true :=
      Flat.isTypeAt_iff.mpr ⟨[], rcut?_append_self _ here⟩
    obtain ⟨e, he⟩ := isSome_iff_exists.mp
      (find?_isSome (p := fun e : Text × Json => Flat.isTypeAt here e.1).mpr ⟨_, hbound, hat⟩)
    have hfound := find?_some he
    obtain ⟨rest, hcut⟩ := Flat.isTypeAt_iff.mp hfound
    rw [he, map_some, honly e (mem_of_find?_eq_some he) ⟨rest, (rcut?_eq_some hcut).symm⟩]
  refine ⟨n, mem_flatMap.mpr ⟨_, Flat.mem_bindingTypes_iff.mpr hget, ?_⟩, hn, howned⟩
  exact mem_append_left _ (mem_toList.mpr hn)

/-- The binding of a property names the property as its owner exactly if it counts. -/
theorem owned?_config_iff (hapart : o.IsApart) (hname : .char '.' ∉ name) :
    (∃ u ∈ aliases (o.full name), (if type ∈ ownerTypes then ownerOf? (o.config name) else none) = some u) ↔
      o.Credits name type := by
  simp only [ite_none_right_eq_some]
  cases o with
  | view l =>
    simp only [ownerOf?_view_iff l hname, Owner.Credits]
    constructor
    · rintro ⟨u, -, htype, -, hwords⟩
      exact ⟨htype, hwords⟩
    · rintro ⟨htype, hwords⟩
      exact ⟨l.viewStart ++ name, mem_cons_self, htype, rfl, hwords⟩
  | component path =>
    simp only [Owner.Credits, iff_false]
    rintro ⟨u, hu, -, howner⟩
    exact not_mem_aliases_component hapart hname howner hu

theorem definition?_property (hname : .char '.' ∉ name) {full : Text} (h : definition? (o.property name) = some full) :
    full = o.full name := by
  cases o with
  | view l => exact some.inj (h.symm.trans (l.definition?_start hname))
  | component path => exact ((definition?_component hname rfl).mp h).1

theorem sameLast_property (hname : .char '.' ∉ name) : SameLast (o.full name) (o.property name) := by
  cases o with
  | view l => exact ⟨name, hname, l.last_viewStart name, l.last_start name⟩
  | component path => exact ⟨name, hname, last_custom _ name, last_custom path name⟩

/-- **The verdict on a property with a binding.** It is reported exactly if its binding does not count and nothing else
refers to it: no text of a node or of the view, and no other binding. -/
theorem bound_reported_iff (settings : Json) (c : Config) (flat : Flat) (m : Model) (findings : List Finding) (o : Owner)
    (name type : Text) (hc : create settings = .ok c) (hm : Model.build flat = .ok m)
    (hcheck : c.check flat m.offered = .ok findings) (hname : .char '.' ∉ name) (hapart : o.IsApart)
    (htype : type ∈ boundTypes) (hbound : (o.config name ++ ".binding.type", .str type) ∈ flat)
    (honly : ∀ e ∈ flat, (o.config name ++ ".binding.type" : Text) <+: e.1 → e.2 = .str type) :
    ∃ n ∈ m.bindings, flat.bindingAt? (o.config name) (.str type) = some n ∧
      (message (o.full name) (o.property name) ∈ findings.map (·.message) ↔
        (o.full name, o.property name) ∈ definitions m ∧ ¬ o.Credits name type ∧
          ∀ u ∈ aliases (o.full name), u ∉ inTexts flat (Fields.keys (definitions m)) ∧
            ∀ n' ∈ m.offered, u ∉ found n' ∧ (n' ≠ n → owned? n' ≠ some u)) := by
  obtain ⟨n, hn, hat, howned⟩ := exists_binding htype hbound honly
  refine ⟨n, Model.bindings_of_build hm ▸ hn, hat, ?_⟩
  obtain ⟨-, rfl⟩ := (check_eq_ok_iff hc hm).mp hcheck
  rw [message_mem_iff hm (sameLast_property hname) (fun full hfull => definition?_property hname hfull),
    ← owned?_config_iff hapart hname, ← howned]
  refine and_congr_right fun _ => ?_
  have hoffered {u : Text} (hu : owned? n = some u) : n ∈ m.offered :=
    (Model.mem_offered_iff_owner hm (of_owned? hu).1).mpr hn
  simp only [surveyOf, mem_append, mem_flatMap, mem_refers_iff, not_or, not_exists, not_and]
  constructor
  · intro h
    refine ⟨fun u hu howner => ((h u hu).1 n (hoffered howner)).2 howner, fun u hu => ⟨(h u hu).2, fun n' hn' => ?_⟩⟩
    exact ⟨((h u hu).1 n' hn').1, fun _ => ((h u hu).1 n' hn').2⟩
  · rintro ⟨hown, h⟩ u hu
    refine ⟨fun n' hn' => ⟨((h u hu).2 n' hn').1, ?_⟩, (h u hu).1⟩
    by_cases heq : n' = n
    · exact heq ▸ hown u hu
    · exact ((h u hu).2 n' hn').2 heq

/-- A view with a property that has a binding. -/
def bound (o : Owner) (name type : Text) : Flat :=
  [("root.Button.meta.name", .str "Button"), (o.property name, .int 1),
    (o.config name ++ ".binding.type", .str type), (o.config name ++ ".binding.config.tagPath", .str "[default]x")]

theorem bound_reported_iff_params : ∃ c m findings, create (.object []) = .ok c ∧
    Model.build (bound (.view .params) "level" "tag") = .ok m ∧
      c.check (bound (.view .params) "level" "tag") m.offered = .ok findings ∧
        message "view.params.level" "params.level" ∉ findings.map (·.message) := by
  obtain ⟨c, hc, m, hm, findings, hcheck, -⟩ : ∃ c, create (.object []) = .ok c ∧
      ∃ m, Model.build (bound (.view .params) "level" "tag") = .ok m ∧
      ∃ findings, c.check (bound (.view .params) "level" "tag") m.offered = .ok findings ∧ True := by decide +kernel
  have honly : ∀ e ∈ bound (.view .params) "level" "tag",
      (Owner.config (.view .params) "level" ++ ".binding.type" : Text) <+: e.1 → e.2 = .str "tag" := by
    simp only [bound, forall_mem_cons]
    exact ⟨fun h => absurd h (by decide), fun h => absurd h (by decide), fun _ => trivial,
      fun h => absurd h (by decide), forall_mem_nil _⟩
  obtain ⟨n, -, -, hverdict⟩ := bound_reported_iff _ c _ m findings (.view .params) "level" "tag" hc hm hcheck
    (by decide) trivial (by decide) (by simp [bound]) honly
  exact ⟨c, m, findings, hc, hm, hcheck, fun hreported => (hverdict.mp hreported).2.1 ⟨by decide, by decide⟩⟩

/-- **A property with a binding is reported**: that of a component. -/
theorem reported_though_bound : ∃ c m findings, create (.object []) = .ok c ∧
    Model.build (bound (.component "root.Button") "level" "tag") = .ok m ∧
      c.check (bound (.component "root.Button") "level" "tag") m.offered = .ok findings ∧
        message "Button.custom.level" "root.Button.custom.level" ∈ findings.map (·.message) := by
  simp only [exists_and_left]
  decide +kernel

end UnusedProperty

end ViewLint
