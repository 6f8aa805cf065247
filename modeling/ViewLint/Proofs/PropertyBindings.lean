import ViewLint.Proofs.BindingOrder

/-!
# The binding of a property

A binding has a type and a configuration, and its class tells which values of the configuration count. In the
flattened form of a view all these are looked up by their paths. They are found as they are written, unless a key
holds dots that make it look like the way to one of them.

* `BindingClass`: the classes of bindings; `BindingClass.data` is what a binding of a class holds.
* `IsPlainProperty`: no key looks like the way into a binding.
* **`Flat.bindingAt?_withoutConfig`**: a binding is what its class makes of the entries below it.
* **`View.find?_boundType`**, **`View.get?_boundConfig`**, **`View.texts_boundConfig`**: the type, the single values
  and the texts of a binding are found below its property.
-/

namespace ViewLint

open View List Option Text Json Fields Flat

/-! ## What a binding says -/

/-- The classes of bindings. -/
inductive BindingClass where
  | expression
  | struct
  | property
  | tag
  | query

namespace BindingClass

def words : List (Text × BindingClass) :=
  [("expression", .expression), ("expr", .expression), ("expr-struct", .struct), ("property", .property),
    ("tag", .tag), ("query", .query)]

def ofType? : Json → Option BindingClass
  | .str word => get? words word
  | _ => none

def part? : BindingClass → Option Text
  | struct => some "struct"
  | tag => some "references"
  | query => some "parameters"
  | _ => none

/-- What a binding holds, given how single values and texts are looked up in its configuration. -/
def data (single : Text → Text → Json) (texts : Text → List (Text × Json)) : BindingClass → NodeData
  | expression => .expressionBinding (single "expression" "unknown") []
  | struct => .expressionStructBinding (texts "struct") []
  | property => .propertyBinding (single "path" "unknown") []
  | tag => .tagBinding (single "tagPath" "unknown") (single "mode" "direct") (texts "references") []
  | query => .queryBinding (single "queryPath" "unknown") (texts "parameters") []

theorem data_congr {single single' : Text → Text → Json} {texts texts' : Text → List (Text × Json)}
    (hsingle : ∀ slot, IsName slot → ∀ fallback, single slot fallback = single' slot fallback) {t : BindingClass}
    (htexts : ∀ part ∈ t.part?, texts part = texts' part) : t.data single texts = t.data single' texts' := by
  cases t with
  | expression => exact congrArg (NodeData.expressionBinding · []) (hsingle _ (by decide) _)
  | property => exact congrArg (NodeData.propertyBinding · []) (hsingle _ (by decide) _)
  | struct => exact congrArg (NodeData.expressionStructBinding · []) (htexts _ rfl)
  | tag => rw [data, data, hsingle _ (by decide), hsingle _ (by decide), htexts _ rfl]
  | query => rw [data, data, hsingle _ (by decide), htexts _ rfl]

end BindingClass

namespace Json

def isTextEntry : Text × Json → Bool
  | (_, .str _) => true
  | _ => false

/-- The value at a key, if it has no parts. -/
def singleAt (v : Json) (key fallback : Text) : Json :=
  ((v.get? key).filter fun u => !u.isContainer).getD (.str fallback)

def textsAt (v : Json) (key : Text) : List (Text × Json) :=
  ((((v.get? key).map innerFields).getD []).map fun f => (f.1.display, f.2)).filter isTextEntry

def boundType? (v : Json) : Option Json := (v.get? "binding").bind (·.get? "type")

/-- The configuration of the binding of a property. -/
def boundConfig (v : Json) : Json := ((v.get? "binding").bind (·.get? "config")).getD .null

/-- What the binding of a property says. -/
def bound? (v : Json) : Option NodeData :=
  (v.boundType?.bind BindingClass.ofType?).map (·.data v.boundConfig.singleAt v.boundConfig.textsAt)

end Json

/-- A node without what else is configured. -/
def Node.withoutConfig (n : Node) : Node :=
  { n with data := match n.data with
    | .expressionBinding expression _ => .expressionBinding expression []
    | .expressionStructBinding struct _ => .expressionStructBinding struct []
    | .propertyBinding target _ => .propertyBinding target []
    | .tagBinding tagPath mode references _ => .tagBinding tagPath mode references []
    | .queryBinding queryPath parameters _ => .queryBinding queryPath parameters []
    | data => data }

namespace Flat

theorem bindingAt?_withoutConfig (flat : Flat) (here : Text) (type : Json) :
    (bindingAt? flat here type).map Node.withoutConfig = (BindingClass.ofType? type).map fun t =>
      ⟨here, t.data (configValue flat here) fun part => textsBelow flat (configStart here ++ (part ++ "."))⟩ := by
  have hequals (name : Text) : type.equals (.str name) = true ↔ type = .str name := Locator.equals_str_iff _ _
  cases type with
  | str word =>
    by_cases hknown : word ∈ BindingClass.words.map (·.1)
    · simp only [BindingClass.words, map_cons, map_nil, mem_cons, not_mem_nil, or_false] at hknown
      obtain rfl | rfl | rfl | rfl | rfl | rfl := hknown <;> rfl
    · have hnone : BindingClass.ofType? (.str word) = none := by
        rw [← not_isSome_iff_eq_none]
        exact fun hsome => hknown ((mem_keys_iff _ word).mpr hsome)
      rw [hnone]
      simp only [BindingClass.words, map_cons, map_nil, mem_cons, not_mem_nil, or_false, not_or] at hknown
      simp only [bindingAt?, Bool.or_eq_true, hequals, str.injEq, hknown]
      rfl
  | _ => rfl

theorem path_of_bindingAt? {flat : Flat} {here : Text} {type : Json} {n : Node}
    (h : bindingAt? flat here type = some n) : n.path = here := by
  have hnode : (bindingAt? flat here type).map Node.withoutConfig = some n.withoutConfig := by rw [h]; rfl
  rw [bindingAt?_withoutConfig, map_eq_some_iff] at hnode
  obtain ⟨t, -, hnode⟩ := hnode
  exact (congrArg Node.path hnode).symm

theorem find?_isTypeAt (flat : Flat) (here : Text) : (flat.find? fun e => isTypeAt here e.1).map (·.2) =
      ((under flat (here ++ ".binding")).find? fun e => isTypeAt [] (".binding" ++ e.1)).map (·.2) := by
  have htest (e : Text × Json) : ((rest? (here ++ ".binding") e.1).map (·, e.2)).any
      (fun e => isTypeAt [] (".binding" ++ e.1)) = isTypeAt here e.1 := by
    cases hrest : rest? (here ++ ".binding") e.1 with
    | none =>
      symm
      rw [map_none, any_none, Bool.eq_false_iff]
      intro htype
      obtain ⟨r, hcut⟩ := isTypeAt_iff.mp htype
      have hsome : rest? (here ++ ".binding") e.1 = some (".type" ++ r) := by
        refine rest?_eq_some_iff.mpr ⟨?_, by simp [ofString]⟩
        rw [rcut?_eq_some hcut]
        simp [ofString]
      rw [hsome] at hrest
      cases hrest
    | some r =>
      obtain ⟨hpath, -⟩ := rest?_eq_some_iff.mp hrest
      have happend := isTypeAt_append here [] (".binding" ++ r)
      rw [append_nil, ← append_assoc, ← hpath] at happend
      exact happend.symm
  rw [under, find?_filterMap]
  simp only [htest]
  cases hfind : flat.find? fun e => isTypeAt here e.1 with
  | none => rfl
  | some e =>
    have hfound := find?_some hfind
    rw [← htest] at hfound
    rw [Option.bind_some, Option.map_map]
    cases hrest : rest? (here ++ ".binding") e.1 with
    | none => rw [hrest] at hfound; cases hfound
    | some r => rfl

end Flat

/-! ## Keys that lead nowhere else -/

/-- The texts that a class of bindings keeps stand in a flat object, and nothing else looks as if it did. -/
def BindingClass.IsFlat (t : BindingClass) (config : List (Key × Json)) : Prop :=
  ∀ part ∈ t.part?, KeepsApart part config ∧ ∀ v ∈ get? config (.name part),
    IsUnnamed v.innerFields ∧ ∀ f ∈ v.innerFields, f.2.isContainer = false

/-- A binding whose type and configuration are found where they are looked for. -/
structure IsPlainBinding (fields : List (Key × Json)) : Prop where
  unnamed : IsUnnamed fields
  /-- Of the keys that begin like that of the type the type is the first. -/
  type : ∀ f ∈ fields.find? fun f => startsWith f.1.display "type", f.1.display = "type" ∧ f.2.isContainer = false
  apart : KeepsApart "config" fields
  config : ∀ v ∈ get? fields (.name "config"), IsUnnamed v.innerFields ∧
    ∀ t ∈ (get? fields (.name "type")).bind BindingClass.ofType?, t.IsFlat v.innerFields

/-- A property whose binding is found where it is looked for. -/
structure IsPlainProperty (fields : List (Key × Json)) : Prop where
  unnamed : IsUnnamed fields
  apart : KeepsApart "binding" fields
  binding : ∀ v ∈ get? fields (.name "binding"), IsPlainBinding v.innerFields

/-- Properties of which none looks like a part of the binding of another one. -/
structure IsPlainConfiguration (fields : List (Key × Json)) : Prop where
  unnamed : IsUnnamed fields
  /-- No key leads into a binding. -/
  keys : ∀ f ∈ fields, ¬ (".binding." : Text) <:+: "." ++ f.1.display
  /-- What another property gives does not stand below the binding of a property. -/
  apart : ∀ f ∈ fields, ∀ g ∈ fields, g.1.display ≠ f.1.display →
    ∀ e ∈ fieldLeaves g, ¬ ("." ++ f.1.display ++ ".binding." : Text) <+: e.1
  properties : ∀ f ∈ fields, IsPlainProperty f.2.innerFields

instance : DecidablePred IsUnnamed := fun fields =>
  match h : componentName? fields with
  | .ok none => isTrue h
  | .ok (some _) => isFalse fun hnone => by cases h.symm.trans hnone
  | .error _ => isFalse fun hnone => by cases h.symm.trans hnone

instance (word : Text) (fields : List (Key × Json)) : Decidable (KeepsApart word fields) :=
  inferInstanceAs (Decidable (∀ f ∈ fields, ¬ (word ++ "." : Text) <+: f.1.display))

instance (t : BindingClass) (config : List (Key × Json)) : Decidable (t.IsFlat config) :=
  inferInstanceAs (Decidable (∀ part ∈ t.part?, KeepsApart part config ∧ ∀ v ∈ get? config (.name part),
    IsUnnamed v.innerFields ∧ ∀ f ∈ v.innerFields, f.2.isContainer = false))

instance : DecidablePred IsPlainBinding := fun _ =>
  decidable_of_iff (_ ∧ _ ∧ _ ∧ _) ⟨fun ⟨a, b, c, d⟩ => ⟨a, b, c, d⟩, fun ⟨a, b, c, d⟩ => ⟨a, b, c, d⟩⟩

instance : DecidablePred IsPlainProperty := fun _ =>
  decidable_of_iff (_ ∧ _ ∧ _) ⟨fun ⟨a, b, c⟩ => ⟨a, b, c⟩, fun ⟨a, b, c⟩ => ⟨a, b, c⟩⟩

instance : DecidablePred IsPlainConfiguration := fun _ =>
  decidable_of_iff (_ ∧ _ ∧ _ ∧ _) ⟨fun ⟨a, b, c, d⟩ => ⟨a, b, c, d⟩, fun ⟨a, b, c, d⟩ => ⟨a, b, c, d⟩⟩

/-! ## What a property gives -/

theorem View.find?_type {fields : List (Key × Json)} (hdoc : isDocumentFields fields = true)
    (htype : ∀ f ∈ fields.find? fun f => startsWith f.1.display "type",
      f.1.display = "type" ∧ f.2.isContainer = false) :
    ((fields.flatMap fieldLeaves).find? fun e => isTypeAt [] (".binding" ++ e.1)).map (·.2) =
      get? fields (.name "type") := by
  induction fields with
  | nil => rfl
  | cons f fields ih =>
    obtain ⟨s, v, rfl, -, -, hdoc⟩ := of_isDocumentFields_cons hdoc
    rw [find?_cons] at htype
    rw [flatMap_cons, find?_append, get?_cons, Key.name_beq_name]
    cases hs : startsWith (Key.name s).display "type" with
    | true =>
      obtain ⟨hkey, hsingle⟩ := htype (.name s, v) (by rw [hs]; rfl)
      obtain rfl : s = "type" := hkey
      rw [fieldLeaves_single hsingle]
      rfl
    | false =>
      rw [hs] at htype
      have hne : s ≠ "type" := by
        rintro rfl
        exact absurd hs (by decide)
      have hnone : (fieldLeaves (.name s, v)).find? (fun e => isTypeAt [] (".binding" ++ e.1)) = none := by
        rw [find?_eq_none]
        intro e he htyped
        obtain ⟨r, hcut⟩ := isTypeAt_iff.mp htyped
        have hpath : e.1 = "." ++ ("type" ++ r) := by
          refine append_cancel_left ((rcut?_eq_some hcut).trans ?_)
          simp [ofString]
        obtain ⟨t, -, ht, -⟩ := split_of_mem_fieldLeaves he (by decide) hpath
        exact absurd ( isPrefixOf_iff_prefix.mpr ⟨t, ht.symm⟩) (Bool.eq_false_iff.mp hs)
      rw [hnone, none_or, ih hdoc htype, if_neg (by simpa using hne)]

/-- A configuration that is found below the binding of a property. -/
structure View.IsConfigOf (f : Key × Json) (config : Json) : Prop where
  under : Flat.under (fieldLeaves f) ("." ++ f.1.display ++ ".binding.config") =
    Flat.under (fieldLeaves (.name "config", config)) ".config"
  readable : IsReadableField (.name "config", config)
  document : config.isDocument = true
  unnamed : IsUnnamed config.innerFields
  flat : ∀ t ∈ f.2.boundType?.bind BindingClass.ofType?, t.IsFlat config.innerFields

section Property

variable {f : Key × Json} (hplain : IsPlainProperty f.2.innerFields) (hdoc : f.2.isDocument = true)
  (hread : IsReadableField f)

include hplain hdoc hread

theorem View.under_binding : under (fieldLeaves f) ("." ++ f.1.display ++ ".binding") =
    ((f.2.get? "binding").map fun b => under (fieldLeaves (.name "binding", b)) ".binding").getD [] :=
  under_field_word hplain.unnamed hread (show IsName "binding" by decide) hdoc hplain.apart

theorem View.find?_boundType :
    ((fieldLeaves f).find? fun e => isTypeAt ("." ++ f.1.display) e.1).map (·.2) = f.2.boundType? := by
  rw [find?_isTypeAt, under_binding hplain hdoc hread, boundType?]
  cases hb : f.2.get? "binding" with
  | none => rfl
  | some b =>
    have hget := (get?_innerFields (show IsName "binding" by decide) f.2).trans hb
    have hbinding := hplain.binding b hget
    rw [map_some, getD_some, bind_some, ← get?_innerFields (by decide)]
    obtain ⟨htable, -⟩ | ⟨hnil, stamp, -, htable⟩ := under_field hbinding.unnamed
      (isReadable_of_get? hplain.unnamed hread (by decide) hb)
    · have hdocument := isDocument_of_get? (isDocumentFields_innerFields hdoc) hget
      refine Eq.trans ?_ (find?_type (isDocumentFields_innerFields hdocument) hbinding.type)
      rw [← htable]
      rfl
    · rw [hnil]
      have hdate : under (fieldLeaves (.name "binding", b)) ".binding" = [(("._JavaDate" : Text), stamp)] := htable
      rw [hdate]
      rfl

/-- **The configuration of a binding** stands below it. -/
theorem View.isConfigOf_boundConfig : IsConfigOf f f.2.boundConfig := by
  have hnone (hempty : under (fieldLeaves f) ("." ++ f.1.display ++ ".binding.config") = []) :
      IsConfigOf f .null := by
    refine ⟨hempty, ⟨_, rfl⟩, rfl, rfl, fun t _ part _ => ⟨forall_mem_nil _, fun v hv => ?_⟩⟩
    cases hv
  have hsplit : under (fieldLeaves f) ("." ++ f.1.display ++ ".binding.config") =
      under (under (fieldLeaves f) ("." ++ f.1.display ++ ".binding")) ("." ++ "config") := by
    rw [under_under]
    simp [ofString]
  rw [under_binding hplain hdoc hread] at hsplit
  rw [boundConfig]
  cases hb : f.2.get? "binding" with
  | none => exact hnone (by rw [hsplit, hb]; rfl)
  | some b =>
    have hget := (get?_innerFields (show IsName "binding" by decide) f.2).trans hb
    have hbinding := hplain.binding b hget
    have hdocument := isDocument_of_get? (isDocumentFields_innerFields hdoc) hget
    have hreadable := isReadable_of_get? hplain.unnamed hread (by decide) hb
    have hconfig : under (under (fieldLeaves (.name "binding", b)) ".binding") ("." ++ "config") =
        ((b.get? "config").map fun v => under (fieldLeaves (.name "config", v)) ".config").getD [] := by
      rw [under_under]
      exact under_field_word hbinding.unnamed hreadable (show IsName "config" by decide) hdocument hbinding.apart
    rw [hb, map_some, getD_some, hconfig] at hsplit
    rw [bind_some]
    cases hv : b.get? "config" with
    | none => exact hnone (by rw [hsplit, hv]; rfl)
    | some v =>
      have hinner : get? b.innerFields (.name "config") = some v := by
        rw [get?_innerFields (by decide), hv]
      obtain ⟨hunnamed, hflat⟩ := hbinding.config v hinner
      have htype : f.2.boundType? = get? b.innerFields (.name "type") := by
        rw [boundType?, hb, bind_some, get?_innerFields (by decide)]
      exact ⟨by rw [hsplit, hv]; rfl, isReadable_of_get? hbinding.unnamed hreadable (by decide) hv,
        isDocument_of_get? (isDocumentFields_innerFields hdocument) hinner, hunnamed, htype ▸ hflat⟩

theorem View.get?_boundConfig {slot : Text} (hslot : IsName slot) :
    get? (under (fieldLeaves f) ("." ++ f.1.display ++ ".binding.config")) ("." ++ slot) =
      (f.2.boundConfig.get? slot).filter fun u => !u.isContainer := by
  have hconfig := isConfigOf_boundConfig hplain hdoc hread
  rw [hconfig.under]
  exact get?_field_word hconfig.unnamed hconfig.readable hslot hconfig.document

/-- **The texts in the configuration** come back as they are written. -/
theorem View.texts_boundConfig {t : BindingClass} (ht : t ∈ f.2.boundType?.bind BindingClass.ofType?) {part : Text}
    (hpart : part ∈ t.part?) :
    ((under (fieldLeaves f) ("." ++ f.1.display ++ ".binding.config" ++ ("." ++ part))).map
      fun e => (e.1.drop 1, e.2)).filter isTextEntry = f.2.boundConfig.textsAt part := by
  have hconfig := isConfigOf_boundConfig hplain hdoc hread
  obtain ⟨hapart, hinner⟩ := hconfig.flat t ht part hpart
  have hname : IsName part := by
    cases t with
    | expression | property => cases hpart
    | struct | tag | query => cases hpart; decide
  have hword : under (under (fieldLeaves (.name "config", f.2.boundConfig)) ".config") ("." ++ part) =
      ((f.2.boundConfig.get? part).map fun u => under (fieldLeaves (.name part, u)) ("." ++ part)).getD [] := by
    rw [under_under]
    exact under_field_word hconfig.unnamed hconfig.readable hname hconfig.document hapart
  rw [← under_under, hconfig.under, hword, textsAt]
  cases hu : f.2.boundConfig.get? part with
  | none => rfl
  | some u =>
    have hget : get? f.2.boundConfig.innerFields (.name part) = some u := by
      rw [get?_innerFields hname, hu]
    obtain ⟨hfields, hsingle⟩ := hinner u hget
    rw [map_some, map_some, getD_some, getD_some]
    obtain ⟨htexts, -⟩ | ⟨hnil, stamp, hstamp, htexts⟩ := under_field hfields
      (isReadable_of_get? hconfig.unnamed hconfig.readable hname hu)
    · have hleaves : u.innerFields.flatMap fieldLeaves =
          u.innerFields.map fun g => (ofString "." ++ g.1.display, g.2) := by
        rw [← flatMap_singleton' (u.innerFields.map _), flatMap_map]
        exact flatMap_congr fun g hg => fieldLeaves_single (hsingle g hg)
      have hshown : under (fieldLeaves (.name part, u)) ("." ++ part) = _ := htexts.trans hleaves
      rw [hshown, List.map_map]
      rfl
    · have hshown : under (fieldLeaves (.name part, u)) ("." ++ part) = _ := htexts
      rw [hshown, hnil]
      cases stamp with
      | str w => exact absurd rfl (hstamp w)
      | _ => rfl

end Property

end ViewLint
