import ViewLint.Proofs.PropertyBindings

/-!
# The bindings that survive flattening

The model is built from the flattened form of a view. In a tree of components, the bindings that it shows at the
properties of the components are the ones that are written there, in document order.

* `Component.configured`: the properties that the components of a tree configure, in document order.
* `Component.HasPlainProperties`: no key looks like the way into a binding.
* **`Component.bindings_configured`**: the bindings of the model at the properties.
-/

namespace ViewLint

open View List Text Json Flat

theorem flatMap_eq_of_mem {α β : Type} {xs : List α} {f : α → List β} {a : α} (hnodup : xs.Nodup) (ha : a ∈ xs)
    (h : ∀ x ∈ xs, x ≠ a → f x = []) : xs.flatMap f = f a := by
  obtain ⟨front, rest, rfl⟩ := append_of_mem ha
  obtain ⟨-, hrest, hfront⟩ := nodup_append.mp hnodup
  have hnil {ys : List α} (hys : ∀ y ∈ ys, y ∈ front ++ a :: rest ∧ y ≠ a) : ys.flatMap f = [] :=
    flatMap_eq_nil_iff.mpr fun y hy => h y (hys y hy).1 (hys y hy).2
  rw [flatMap_append, flatMap_cons, hnil fun y hy => ⟨by simp [hy], fun heq => hfront y hy a (by simp) heq⟩,
    hnil fun y hy => ⟨by simp [hy], fun heq => (nodup_cons.mp hrest).1 (heq ▸ hy)⟩]
  simp

theorem Flat.exists_of_isTypeAt {here path : Text} (h : isTypeAt here path = true) :
    ∃ r, path = here ++ (".binding." ++ r) := by
  obtain ⟨rest, hcut⟩ := isTypeAt_iff.mp h
  refine ⟨"type" ++ rest, (rcut?_eq_some hcut).trans ?_⟩
  simp [ofString]

namespace Component

/-! ## The properties of a tree -/

def Member.properties : Member → List (Key × Json)
  | .propConfig v => v.innerFields
  | _ => []

def Member.HasPlainProperties : Member → Prop
  | .propConfig v => v.isDocument = true ∧ IsPlainConfiguration v.innerFields
  | _ => True

def propertyAt (c : Component) (p : List Nat) (key : Text) : Text := c.pathAt "root" p ++ (".propConfig." ++ key)

/-- The properties that are configured in a tree, in document order, with their paths. -/
def configured (c : Component) : List (Text × Json) :=
  c.members.flatMap fun x => x.2.properties.map fun f => (c.propertyAt x.1 f.1.display, f.2)

def isConfigured (c : Component) (path : Text) : Bool := (c.configured.map (·.1)).contains path

/-- A tree whose properties are plain. -/
def HasPlainProperties (c : Component) : Prop := ∀ x ∈ c.members, x.2.HasPlainProperties

instance : DecidablePred Member.HasPlainProperties
  | .propConfig v => inferInstanceAs (Decidable (v.isDocument = true ∧ IsPlainConfiguration v.innerFields))
  | .name _ | .type _ => isTrue trivial

instance (c : Component) : Decidable c.HasPlainProperties :=
  inferInstanceAs (Decidable (∀ x ∈ c.members, x.2.HasPlainProperties))

theorem isConfigured_iff {c : Component} {path : Text} :
    c.isConfigured path = true ↔ ∃ x ∈ c.members, ∃ f ∈ x.2.properties, path = c.propertyAt x.1 f.1.display := by
  rw [isConfigured, contains_iff_mem, configured, map_flatMap, mem_flatMap]
  simp only [map_map, mem_map, Function.comp_apply, @eq_comm _ path]

/-- A member that gives what the properties give which it configures. -/
structure Member.Configures (kind : ObjectKind) (m : Member) : Prop where
  key : m.key = "propConfig"
  leaves : m.leaves kind = shift ".propConfig" (m.properties.flatMap fieldLeaves)
  readable : ∀ f ∈ m.properties, IsReadableField f
  document : isDocumentFields m.properties = true
  plain : IsPlainConfiguration m.properties

/-- Where a property stands makes no difference for the type of its binding. -/
theorem find?_propertyAt (c : Component) (p : List Nat) (key : Text) (es : Flat) :
    (shift (c.pathAt "root" p ++ ".propConfig") es).find? (fun e => isTypeAt (c.propertyAt p key) e.1) =
      (es.find? fun e => isTypeAt ("." ++ key) e.1).map
        fun e => (c.pathAt "root" p ++ ".propConfig" ++ e.1, e.2) := by
  rw [shift, find?_map]
  refine congrArg _ (find?_congr fun e _ => ?_)
  have hproperty : c.propertyAt p key = c.pathAt "root" p ++ ".propConfig" ++ ("." ++ key) := by
    simp [propertyAt, ofString]
  rw [Function.comp_apply, hproperty, isTypeAt_append]

section Tree

variable {g : Key × Json} {e : Text × Json} {kind : ObjectKind} {c : Component}
  (hplain : c.HasPlainProperties) (hread : c.IsReadable kind)
  {x : List Nat × Member} {f : Key × Json}

include hplain hread

theorem configures (hx : x ∈ c.members) (hf : f ∈ x.2.properties) : x.2.Configures kind := by
  obtain ⟨d, hd, hm⟩ := mem_members_iff.mp hx
  have hmember := hplain x hx
  have hreadable := hread x.1 d hd x.2 hm
  cases hv : x.2 with
  | propConfig v =>
    rw [hv] at hf hmember hreadable
    obtain ⟨hdoc, hconfiguration⟩ := hmember
    cases v with
    | obj kind' fields =>
      have hdate : (obj kind' fields).isJavaDate = false := by
        rw [Member.properties, innerFields] at hf
        split at hf
        · cases hf
        · next hdate => simpa using hdate
      have hinner : (Member.propConfig (.obj kind' fields)).properties = fields := by
        rw [Member.properties, innerFields, hdate]
        rfl
      have hfields : IsPlainConfiguration fields := hinner ▸ hconfiguration
      have hfield : IsReadableField (.name "propConfig", .obj kind' fields) := hreadable
      constructor
      · rfl
      · have hleaves := fieldLeaves_obj hdate hfields.unnamed hfield
        rw [hinner]
        exact hleaves
      · rw [hinner]
        exact isReadable_of_obj hdate hfields.unnamed hfield
      · rw [hinner]
        exact hdoc
      · exact hconfiguration
    | _ => cases hf
  | name _ | type _ => rw [hv] at hf; cases hf

theorem member_of_path {y : List Nat × Member} (hx : x ∈ c.members) (hy : y ∈ c.members)
    (hg : g ∈ y.2.properties) {l : Text × Json} (hl : l ∈ x.2.leaves kind) {r : Text}
    (h : c.pathAt "root" x.1 ++ l.1 = c.propertyAt y.1 g.1.display ++ (".binding." ++ r)) :
    x = y ∧ l.1 = ".propConfig" ++ ("." ++ g.1.display ++ (".binding." ++ r)) := by
  rw [propertyAt, append_assoc, append_assoc] at h
  obtain ⟨hpos, hpath, hkey⟩ := of_path_propConfig kind hx hl (isSome_of_mem_members hy) h
  refine ⟨inj_on_of_nodup_map (nodup_members c) hx hy ?_, hpath.trans ?_⟩
  · rw [hpos, hkey, (configures hplain hread hy hg).key]
  simp [ofString]

theorem property_of_path (hx : x ∈ c.members) (hf : f ∈ x.2.properties)
    (hg : g ∈ x.2.properties) (he : e ∈ fieldLeaves f) {r : Text}
    (h : e.1 = "." ++ g.1.display ++ (".binding." ++ r)) : f = g := by
  have hmember := configures hplain hread hx hf
  refine inj_on_of_nodup_map (nodup_display hmember.document) hf hg ?_
  by_contra hne
  refine hmember.plain.apart g hg f hf hne e he ⟨r, ?_⟩
  rw [h, append_assoc]

theorem under_listing (hx : x ∈ c.members) (hf : f ∈ x.2.properties) :
    under (c.listing kind) (c.propertyAt x.1 f.1.display ++ ".binding") =
      under (fieldLeaves f) ("." ++ f.1.display ++ ".binding") := by
  have hconfigures := configures hplain hread hx hf
  have hmember : under (c.listing kind) (c.propertyAt x.1 f.1.display ++ ".binding") =
      under (shift (c.pathAt "root" x.1) (x.2.leaves kind)) (c.propertyAt x.1 f.1.display ++ ".binding") := by
    rw [listing_eq, under_flatMap]
    refine flatMap_eq_of_mem (nodup_members c).of_map hx fun y hy hne => ?_
    rw [under_eq_nil_iff]
    intro e he r hr
    obtain ⟨l, hl, rfl⟩ := mem_map.mp he
    refine hne (member_of_path hplain hread hy hx hf hl (r := r) (hr.trans ?_)).1
    simp [ofString]
  have hproperty : c.propertyAt x.1 f.1.display ++ ".binding" =
      c.pathAt "root" x.1 ++ (".propConfig" ++ ("." ++ f.1.display ++ ".binding")) := by
    simp [propertyAt, ofString]
  rw [hmember, hproperty, under_shift, hconfigures.leaves, under_shift, under_flatMap]
  refine flatMap_eq_of_mem (nodup_display hconfigures.document).of_map hf fun g hg hne => ?_
  rw [under_eq_nil_iff]
  intro e he r hr
  refine hne (property_of_path hplain hread hx hg hf he (r := r) (hr.trans ?_))
  simp [ofString]

/-! ## The types of the bindings -/

/-- The type of a binding is told by the entries of its property. -/
theorem eq_propertyAt (hx : x ∈ c.members) (hf : f ∈ x.2.properties) {here : Text} (hhere : c.isConfigured here = true)
    (htype : ∃ e ∈ shift (c.pathAt "root" x.1 ++ ".propConfig") (fieldLeaves f), isTypeAt here e.1 = true) :
    here = c.propertyAt x.1 f.1.display := by
  obtain ⟨y, hy, g, hg, rfl⟩ := isConfigured_iff.mp hhere
  obtain ⟨e, he, htype⟩ := htype
  obtain ⟨l, hl, rfl⟩ := mem_map.mp he
  obtain ⟨r, hr⟩ := exists_of_isTypeAt htype
  have hmem : (".propConfig" ++ l.1, l.2) ∈ x.2.leaves kind := by
    rw [(configures hplain hread hx hf).leaves]
    exact mem_map.mpr ⟨l, mem_flatMap.mpr ⟨f, hf, hl⟩, rfl⟩
  obtain ⟨rfl, hpath⟩ := member_of_path hplain hread hx hy hg hmem ((append_assoc ..).symm.trans hr)
  rw [property_of_path hplain hread hx hf hg hl (append_cancel_left hpath)]

theorem filter_bindingTypes_member (hx : x ∈ c.members) :
    (bindingTypes (shift (c.pathAt "root" x.1) (x.2.leaves kind))).filter (fun t => c.isConfigured t.1) =
      x.2.properties.filterMap fun f => f.2.boundType?.map (c.propertyAt x.1 f.1.display, ·) := by
  cases hproperties : x.2.properties with
  | nil =>
    rw [filterMap_nil, filter_eq_nil_iff]
    intro t ht hhere
    obtain ⟨y, hy, g, hg, heq⟩ := isConfigured_iff.mp hhere
    obtain ⟨e, he, htype⟩ := exists_of_mem_bindingTypes ht
    obtain ⟨l, hl, rfl⟩ := mem_map.mp he
    obtain ⟨r, hr⟩ := exists_of_isTypeAt htype
    rw [heq] at hr
    obtain ⟨rfl, -⟩ := member_of_path hplain hread hx hy hg hl hr
    rw [hproperties] at hg
    cases hg
  | cons f₀ rest =>
    have hf₀ : f₀ ∈ x.2.properties := by rw [hproperties]; exact mem_cons_self
    have hmember := configures hplain hread hx hf₀
    have hpieces : shift (c.pathAt "root" x.1) (x.2.leaves kind) =
        x.2.properties.flatMap fun f => shift (c.pathAt "root" x.1 ++ ".propConfig") (fieldLeaves f) := by
      rw [hmember.leaves, shift, shift, map_map, map_flatMap]
      refine flatMap_congr fun f _ => map_congr_left fun e _ => ?_
      rw [Function.comp_apply, append_assoc]
    rw [← hproperties, hpieces, filter_bindingTypes_flatMap]
    · rw [filterMap_eq_flatMap_toList]
      refine flatMap_congr fun f hf => ?_
      rw [filter_bindingTypes_single (isConfigured_iff.mpr ⟨x, hx, f, hf, rfl⟩) fun there hthere htype =>
        eq_propertyAt hplain hread hx hf hthere htype]
      rw [find?_propertyAt, ← find?_boundType (hmember.plain.properties f hf)
        (isDocument_of_mem hmember.document hf) (hmember.readable f hf), Option.map_map, Option.map_map]
      rfl
    · refine (pairwise_map.mp (nodup_display hmember.document)).imp_of_mem fun {f g} hf hg hne => ?_
      intro here hhere hleft hright
      have hsame := (eq_propertyAt hplain hread hx hf hhere hleft).symm.trans
        (eq_propertyAt hplain hread hx hg hhere hright)
      exact hne (append_cancel_left (append_cancel_left hsame))

theorem filter_bindingTypes_listing : (bindingTypes (c.listing kind)).filter (fun t => c.isConfigured t.1) =
      c.configured.filterMap fun e => e.2.boundType?.map (e.1, ·) := by
  rw [listing_eq, filter_bindingTypes_flatMap, configured, filterMap_flatMap]
  · refine flatMap_congr fun x hx => ?_
    rw [filter_bindingTypes_member hplain hread hx, filterMap_map]
    rfl
  · refine (pairwise_map.mp (nodup_members c)).imp_of_mem fun {x y} hx hy hne => ?_
    rintro here hhere ⟨e, he, htype⟩ ⟨e', he', htype'⟩
    obtain ⟨z, hz, g, hg, rfl⟩ := isConfigured_iff.mp hhere
    obtain ⟨l, hl, rfl⟩ := mem_map.mp he
    obtain ⟨l', hl', rfl⟩ := mem_map.mp he'
    obtain ⟨r, hr⟩ := exists_of_isTypeAt htype
    obtain ⟨r', hr'⟩ := exists_of_isTypeAt htype'
    obtain ⟨rfl, -⟩ := member_of_path hplain hread hx hz hg hl hr
    obtain ⟨rfl, -⟩ := member_of_path hplain hread hy hz hg hl' hr'
    exact hne rfl

/-! ## The bindings -/

theorem data_propertyAt (hx : x ∈ c.members) (hf : f ∈ x.2.properties)
    {t : BindingClass} (ht : t ∈ f.2.boundType?.bind BindingClass.ofType?) :
    (t.data (configValue (c.listing kind) (c.propertyAt x.1 f.1.display)) fun part =>
        textsBelow (c.listing kind) (configStart (c.propertyAt x.1 f.1.display) ++ (part ++ "."))) =
      t.data f.2.boundConfig.singleAt f.2.boundConfig.textsAt := by
  have hmember := configures hplain hread hx hf
  have hproperty := hmember.plain.properties f hf
  have hdocument := isDocument_of_mem hmember.document hf
  have hconfig : under (c.listing kind) (c.propertyAt x.1 f.1.display ++ ".binding.config") =
      under (fieldLeaves f) ("." ++ f.1.display ++ ".binding.config") := by
    have hstep (es : Flat) (a : Text) : under es (a ++ ".binding.config") =
        under (under es (a ++ ".binding")) ("." ++ "config") := by
      rw [under_under]
      simp [ofString]
    rw [hstep, hstep, under_listing hplain hread hx hf]
  refine BindingClass.data_congr (fun slot hslot fallback => ?_) fun part hpart => ?_
  · have hpath : c.propertyAt x.1 f.1.display ++ "." ++ ("binding.config." ++ slot) =
        c.propertyAt x.1 f.1.display ++ ".binding.config" ++ ("." ++ slot) := by
      simp [ofString]
    rw [configValue, valueAt, hpath, ← get?_under, hconfig,
      get?_boundConfig hproperty hdocument (hmember.readable f hf) hslot]
    rfl
  · have hpath : configStart (c.propertyAt x.1 f.1.display) ++ (part ++ ".") =
        c.propertyAt x.1 f.1.display ++ ".binding.config" ++ ("." ++ part) ++ "." := by
      simp [configStart, ofString]
    rw [textsBelow, hpath, below_eq, ← under_under, hconfig, under_under,
      ← texts_boundConfig hproperty hdocument (hmember.readable f hf) ht hpart]
    refine filter_congr fun e _ => ?_
    obtain ⟨path, v⟩ := e
    cases v <;> rfl

/-- Nothing but the binding of a property is found at its path. -/
theorem filter_bindings_listing : (bindings (c.listing kind)).filter (fun n => c.isConfigured n.path) =
      ((bindingTypes (c.listing kind)).filter fun t => c.isConfigured t.1).filterMap
        fun t => bindingAt? (c.listing kind) t.1 t.2 := by
  have hnodes : ∀ t ∈ bindingTypes (c.listing kind),
      ((bindingAt? (c.listing kind) t.1 t.2).toList ++ expressionTransforms (c.listing kind) t.1).filter
        (fun n => c.isConfigured n.path) =
      if c.isConfigured t.1 then (bindingAt? (c.listing kind) t.1 t.2).toList else [] := by
    intro t ht
    have htransforms : (expressionTransforms (c.listing kind) t.1).filter (fun n => c.isConfigured n.path) = [] := by
      rw [filter_eq_nil_iff]
      intro n hn hconfigured
      obtain ⟨x, hx, f, hf, hpath⟩ := isConfigured_iff.mp hconfigured
      exact path_ne_of_mem_expressionTransforms kind (exists_of_mem_bindingTypes ht) hn (isSome_of_mem_members hx)
        ((configures hplain hread hx hf).plain.keys f hf) hpath
    rw [filter_append, htransforms, append_nil]
    cases hnode : bindingAt? (c.listing kind) t.1 t.2 with
    | none => simp
    | some n => simp [filter_cons, path_of_bindingAt? hnode]
  have hfilter (ts : List (Text × Json)) (g : Text × Json → List Node) :
      (ts.flatMap fun t => if c.isConfigured t.1 then g t else []) =
        (ts.filter fun t => c.isConfigured t.1).flatMap g := by
    induction ts with
    | nil => rfl
    | cons t ts ih =>
      rw [flatMap_cons, ih, filter_cons]
      split <;> simp
  rw [bindings, filter_flatMap, filterMap_eq_flatMap_toList, ← hfilter]
  exact flatMap_congr hnodes

theorem bindingAt?_propertyAt (he : e ∈ c.configured) :
    ((e.2.boundType?.bind (Flat.bindingAt? (c.listing kind) e.1)).map Node.withoutConfig) =
      e.2.bound?.map (Node.mk e.1) := by
  obtain ⟨x, hx, he⟩ := mem_flatMap.mp he
  obtain ⟨f, hf, rfl⟩ := mem_map.mp he
  rw [Option.map_bind, bound?, Option.map_map]
  cases htype : f.2.boundType? with
  | none => rfl
  | some type =>
    rw [Option.bind_some, Option.bind_some, Function.comp_apply, Flat.bindingAt?_withoutConfig]
    refine Option.map_congr fun t ht => ?_
    rw [Function.comp_apply, data_propertyAt hplain hread hx hf (by rw [htype]; exact ht)]

end Tree

/-- **The bindings of the properties survive flattening.** In a tree whose entries all have different paths, and in
which no key looks like the way into a binding, the model has one binding for each property with a binding, in
document order, at the path of the property, of the class that its type means and with the values of its
configuration. -/
theorem bindings_configured {kind : ObjectKind} {c : Component} {es : Flat} {m : Model}
    (hplain : c.HasPlainProperties) (hentries : entries "" (c.view kind) = .ok es)
    (hdistinct : (es.map (·.1)).Nodup) (hmodel : (flatten (c.view kind) >>= Model.build) = .ok m) :
    (m.bindings.filter fun n => c.isConfigured n.path).map Node.withoutConfig =
      c.configured.filterMap fun e => e.2.bound?.map (Node.mk e.1) := by
  obtain ⟨hread, rfl⟩ := (entries_view_iff kind).mp hentries
  obtain ⟨flat, hflat, hbuild⟩ := bind_eq_ok.mp hmodel
  obtain ⟨-, rfl⟩ := (flatten_view_iff kind).mp hflat
  rw [Fields.ofPairs_of_nodup hdistinct] at hbuild
  have hbindings : m.bindings = Flat.bindings (c.listing kind) := by
    obtain ⟨methods, -, hm⟩ := bind_eq_ok.mp hbuild
    rw [← Except.ok.inj hm]
  rw [hbindings, filter_bindings_listing hplain hread, filter_bindingTypes_listing hplain hread, map_filterMap,
    filterMap_filterMap]
  refine filterMap_congr fun e he => ?_
  rw [← bindingAt?_propertyAt hplain hread he]
  cases e.2.boundType? <;> rfl

def boundTo (type : Text) (config : List (Text × Json)) : Json :=
  .object [("binding", .object [("type", .str type), ("config", .object config)])]

/-- A component that configures its properties behind its child, which configures one of its own. -/
def pump : Component :=
  mk
    { before := [.name "pump"]
      after := [.propConfig (.object [("k", boundTo "expr" [("expression", .str "1")]),
          ("k.l", boundTo "expr-struct" [("struct", .object [("a.b", .str "2"), ("c", .str "3")])])])]
      distinct := by decide }
    [mk
      { before := [.propConfig (.object
          [("m", boundTo "tag" [("tagPath", .str "4"), ("references", .object [("r", .str "5")])])])]
        after := []
        distinct := by decide } []]

theorem bindings_configured_pump : pump.HasPlainProperties ∧ ∃ es m,
    entries "" (pump.view .plain) = .ok es ∧ (es.map (·.1)).Nodup ∧
    (flatten (pump.view .plain) >>= Model.build) = .ok m ∧
    (m.bindings.filter fun n => pump.isConfigured n.path).map Node.withoutConfig =
      [⟨"root.pump.children[0].propConfig.m", .tagBinding (.str "4") (.str "direct") [("r", .str "5")] []⟩,
        ⟨"root.pump.propConfig.k", .expressionBinding (.str "1") []⟩,
        ⟨"root.pump.propConfig.k.l", .expressionStructBinding [("a.b", .str "2"), ("c", .str "3")] []⟩] := by
  obtain ⟨hplain, ⟨es, hes, hdistinct⟩, m, hm, -⟩ : pump.HasPlainProperties ∧
      (∃ es, entries "" (pump.view .plain) = .ok es ∧ (es.map (·.1)).Nodup) ∧
      ∃ m, (flatten (pump.view .plain) >>= Model.build) = .ok m ∧ True := by
    decide +kernel
  exact ⟨hplain, es, m, hes, hdistinct, hm, (bindings_configured hplain hes hdistinct hm).trans rfl⟩

/-- A component with a binding whose configuration has a key that looks like the way to an expression. -/
def mixed : Component :=
  mk
    { before := [.name "a", .propConfig (.object
        [("k", boundTo "expr-struct" [("struct", .object [("a", .str "1")]), ("struct.b", .str "2")])])]
      after := []
      distinct := by decide } []

/-- How many expressions a binding has. -/
def structSize (n : Node) : Nat :=
  match n.data with
  | .expressionStructBinding struct _ => struct.length
  | _ => 0

/-- Different paths are not enough: the key `struct.b` of the configuration comes back as an expression. -/
theorem mixed_bindings : ∃ es m, View.entries "" (mixed.view .plain) = .ok es ∧ (es.map (·.1)).Nodup ∧
    (flatten (mixed.view .plain) >>= Model.build) = .ok m ∧
    (m.bindings.filter fun n => mixed.isConfigured n.path).map Node.withoutConfig ≠
      mixed.configured.filterMap fun e => e.2.bound?.map (Node.mk e.1) := by
  obtain ⟨⟨es, hes, hdistinct⟩, ⟨m, hm, hsize⟩, hwritten⟩ :
      (∃ es, View.entries "" (mixed.view .plain) = .ok es ∧ (es.map (·.1)).Nodup) ∧
      (∃ m, (flatten (mixed.view .plain) >>= Model.build) = .ok m ∧
        ((m.bindings.filter fun n => mixed.isConfigured n.path).map Node.withoutConfig).map structSize = [2]) ∧
      (mixed.configured.filterMap fun e => e.2.bound?.map (Node.mk e.1)).map structSize = [1] := by
    decide +kernel
  refine ⟨es, m, hes, hdistinct, hm, fun hsame => ?_⟩
  rw [← hsame, hsize] at hwritten
  cases hwritten

end Component

end ViewLint
