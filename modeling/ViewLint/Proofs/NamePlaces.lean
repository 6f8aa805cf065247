import Mathlib.Data.List.Nodup
import ViewLint.Model.Build
import ViewLint.Proofs.Cutting
import ViewLint.Proofs.Places

/-!
# Where the names of components stand

A component is known by its path in the flattened view. The locator leads from the path to the place of
the name, and the flattened view has the name as an entry.

* **`Locator.at_namePlace`**: where the locator finds a name, a component of that path has its name.
* `View.hasPlainMeta`: names are texts, and the object that holds a name holds no other.
* **`Locator.name_of_namePlace`**: if no two entries share a path, the name that the flattened view has is
  the one that stands where the locator finds it.
-/

namespace ViewLint

open List Json Fields

variable {n : Node} {flat : Flat} {l : Locator} {name v : Json}

open View

theorem Json.mem_of_get? {fields : List (Key × Json)} {key : Text} {w : Json}
    (h : Fields.get? fields (.name key) = some w) : (.name key, w) ∈ fields := by
  obtain ⟨⟨k, v⟩, hfind, rfl⟩ := Option.map_eq_some_iff.mp h
  have hkey := find?_some hfind
  obtain rfl : k = .name key := Key.eq_name_of_beq hkey
  exact mem_of_find?_eq_some hfind

/-! ## Points in time -/

theorem Json.of_isJavaDate {kind : ObjectKind} {fields : List (Key × Json)}
    (h : (obj kind fields).isJavaDate = true) :
    ∃ tag precision nanos stamp, precision.isNumber = true ∧ nanos.isNumber = true ∧ stamp.isNumber = true ∧
      ∀ f ∈ fields, f = (.name "$", .arr [.str tag, precision, nanos]) ∨ f = (.name "$ts", stamp) := by
  rw [isJavaDate] at h
  split at h
  · rename_i tag precision nanos stamp hdollar hstamp
    simp only [Bool.and_eq_true, beq_iff_eq] at h
    obtain ⟨⟨⟨⟨-, hprecision⟩, hnanos⟩, hnumber⟩, hlength⟩ := h
    refine ⟨tag, precision, nanos, stamp, hprecision, hnanos, hnumber, fun f hf => ?_⟩
    obtain ⟨a, b, rfl⟩ := length_eq_two.mp hlength
    -- The two keys differ, so they are those of the two fields.
    have hne : ("$" : Text) ≠ "$ts" := by decide
    have hdollar := mem_of_get? hdollar
    have hstamp := mem_of_get? hstamp
    simp only [mem_cons, not_mem_nil, or_false] at hdollar hstamp hf
    grind
  · cases h

theorem Json.isContainer_of_isNumber (h : v.isNumber = true) : v.isContainer = false := by
  cases v with
  | arr _ | obj _ _ => cases h
  | _ => rfl

/-! ## The parts of the two walks -/

namespace Locator

variable {root : Json} {items : List Json} {key path : Text} {fields : List (Key × Json)}
  {es : Flat} {place : Path} {ms : List Landmark} {m : Landmark}
  {v : Json}

theorem partEntries_subset (h : entriesFields path fields = .ok es) {f : Key × Json} (hf : f ∈ fields) :
    ∃ own, partEntries (child path f.1.display) f.2 = .ok own ∧ own ⊆ es := by
  rw [entriesFields_eq] at h
  obtain ⟨own, hown⟩ := exists_row_iff.mp ⟨es, h⟩ f hf
  exact ⟨own, hown, fun e he => (mem_row_iff h).mpr ⟨f, hf, own, hown, he⟩⟩

theorem itemEntries_subset {j : Nat} (h : entriesItems path 0 items = .ok es) {x : Json} (hx : items[j]? = some x) :
    ∃ own, itemEntries path j x = .ok own ∧ own ⊆ es := by
  rw [entriesItems_eq] at h
  have hx : (x, j) ∈ items.zipIdx := mem_zipIdx_iff_getElem?.mpr hx
  obtain ⟨own, hown⟩ := exists_row_iff.mp ⟨es, h⟩ (x, j) hx
  exact ⟨own, hown, fun e he => (mem_row_iff h).mpr ⟨(x, j), hx, own, hown, he⟩⟩

theorem partLandmarks_cases (h : partLandmarks key place v = .ok ms) (hm : m ∈ ms) :
    (v.isContainer = true ∧ landmarks key place v = .ok ms) ∨ m = ⟨.str key, place, false⟩ := by
  rw [partLandmarks] at h
  split at h
  · next hc => exact .inl ⟨hc, h⟩
  · cases h
    exact .inr (mem_singleton.mp hm)

/-- A landmark that stands in fields stands in the value of one, or for such a value. -/
theorem mem_landmarksFields (h : landmarksFields key place fields = .ok ms) (hm : m ∈ ms) :
    ∃ f ∈ fields, (f.2.isContainer = true ∧ ∃ own,
      landmarks (child key f.1.display) (place ++ [f.1.toJson]) f.2 = .ok own ∧ m ∈ own) ∨
      m = ⟨.str (child key f.1.display), place ++ [f.1.toJson], false⟩ := by
  rw [landmarksFields_eq] at h
  obtain ⟨f, hf, own, hown, hm⟩ := (mem_row_iff h).mp hm
  exact ⟨f, hf, (partLandmarks_cases hown hm).imp_left fun hin => ⟨hin.1, own, hin.2, hm⟩⟩

theorem mem_landmarksItems (h : landmarksItems key place 0 items = .ok ms) (hm : m ∈ ms) :
    ∃ (j : Nat) (x : Json), items[j]? = some x ∧ ((x.isContainer = true ∧ ∃ own,
      landmarks (item key j) (place ++ [.int j]) x = .ok own ∧ m ∈ own) ∨
      m = ⟨.str (item key j), place ++ [.int j], false⟩) := by
  rw [landmarksItems_eq] at h
  obtain ⟨x, hx, own, hown, hm⟩ := (mem_row_iff h).mp hm
  refine ⟨x.2, x.1, mem_zipIdx_iff_getElem?.mp hx, ?_⟩
  exact (partLandmarks_cases hown hm).imp_left fun hin => ⟨hin.1, own, hin.2, hm⟩

theorem of_mem_landmarksFields
    (h : landmarksFields key place fields = .ok ms) (hm : m ∈ ms) (hcomponent : m.isComponent = true) :
    ∃ f ∈ fields, f.2.isContainer = true ∧ ∃ own,
      landmarks (child key f.1.display) (place ++ [f.1.toJson]) f.2 = .ok own ∧ m ∈ own := by
  obtain ⟨f, hf, hin | rfl⟩ := mem_landmarksFields h hm
  · exact ⟨f, hf, hin⟩
  · cases hcomponent

theorem of_mem_landmarksItems
    (h : landmarksItems key place 0 items = .ok ms) (hm : m ∈ ms) (hcomponent : m.isComponent = true) :
    ∃ (j : Nat) (x : Json), items[j]? = some x ∧ x.isContainer = true ∧ ∃ own,
      landmarks (item key j) (place ++ [.int j]) x = .ok own ∧ m ∈ own := by
  obtain ⟨j, x, hx, hin | rfl⟩ := mem_landmarksItems h hm
  · exact ⟨j, x, hx, hin⟩
  · cases hcomponent

/-! ## The landmarks of components -/

theorem of_componentName? (h : componentName? fields = .ok (some name)) :
    ∃ kind info, get? fields (.name "meta") = some (.obj kind info) ∧
      get? info (.name "name") = some name ∧ name.isTrue = true := by
  rw [componentName?] at h
  split at h
  · cases h
  · rename_i kind info hmeta
    split at h
    · rename_i name' hname
      split at h
      · rename_i htrue
        cases h
        exact ⟨kind, info, hmeta, hname, htrue⟩
      · cases h
    · cases h
  · cases h

theorem not_component_of_isJavaDate (hdate : v.isJavaDate = true) (h : landmarks key place v = .ok ms)
    (hm : m ∈ ms) : ¬ m.isComponent = true := by
  intro hcomponent
  cases v with
  | obj kind fields =>
    obtain ⟨tag, precision, nanos, stamp, hprecision, hnanos, hstamp, hfields⟩ := of_isJavaDate hdate
    have hunnamed : componentName? fields = .ok none := by
      cases hname : get? fields (.name "meta") with
      | none => rw [componentName?, hname]
      | some info => cases hfields _ (mem_of_get? hname) with
        | inl h | inr h => cases h
    rw [landmarks_unnamed key place kind hunnamed] at h
    obtain ⟨f, hf, hcontainer, own, hown, hm⟩ := of_mem_landmarksFields h hm hcomponent
    obtain rfl | rfl := hfields f hf
    · rw [landmarks] at hown
      obtain ⟨j, x, hx, hxcontainer, -⟩ := of_mem_landmarksItems hown hm hcomponent
      have hmem := mem_of_getElem? hx
      simp only [mem_cons, not_mem_nil, or_false] at hmem
      obtain rfl | rfl | rfl := hmem
      · cases hxcontainer
      · cases (isContainer_of_isNumber hprecision).symm.trans hxcontainer
      · cases (isContainer_of_isNumber hnanos).symm.trans hxcontainer
    · cases (isContainer_of_isNumber hstamp).symm.trans hcontainer
  | _ => cases hdate

/-- A landmark stands for a component whose entries are among given ones. -/
def Named (root : Json) (es : Flat) (m : Landmark) : Prop :=
  ∃ key kind fields name own, root.At m.place (.obj kind fields) ∧ componentName? fields = .ok (some name) ∧
    m.key = ownKey key name ∧ entriesFields (child key name.display) fields = .ok own ∧ own ⊆ es

theorem Named.mono {es' : Flat} (h : Named root es m) (hsubset : es ⊆ es') : Named root es' m := by
  obtain ⟨key, kind, fields, name, own, hat, hname, hkey, hown, hes⟩ := h
  exact ⟨key, kind, fields, name, own, hat, hname, hkey, hown, Subset.trans hes hsubset⟩

theorem landmarks_single (path : Text) (place : Path) (hv : v.isContainer = false) :
    landmarks path place v = .ok [] := by
  cases v with
  | arr _ | obj _ _ => cases hv
  | _ => simp [landmarks]

theorem at_of_landmarks (hat : root.At place v)
    (hdoc : v.isDocument = true) (hms : landmarks path place v = .ok ms) (hm : m ∈ ms) :
    ∃ w, root.At m.place w := by
  induction v using parts_induction generalizing path place ms with
  | single v hv =>
    rw [landmarks_single path place hv] at hms
    cases hms
    cases hm
  | arr items ih =>
    rw [landmarks] at hms
    obtain ⟨j, x, hx, ⟨-, own, hown, hm⟩ | rfl⟩ := mem_landmarksItems hms hm
    · exact ih x (mem_of_getElem? hx) (hat.append (.item hx (.here x))) (isDocument_of_getElem? hdoc hx) hown hm
    · exact ⟨x, hat.append (.item hx (.here x))⟩
  | obj kind fields ih =>
    obtain ⟨name?, inner, rest, -, -, hrest, rfl⟩ := of_landmarks_obj hms
    obtain hm | hm := mem_append.mp hm
    · obtain ⟨name, -, rfl⟩ := mem_map.mp hm
      exact ⟨_, hat⟩
    · obtain ⟨f, hf, hin⟩ := mem_landmarksFields hrest hm
      obtain ⟨key, w, rfl, hget⟩ := exists_get?_of_mem hdoc hf
      obtain ⟨-, own, hown, hm⟩ | rfl := hin
      · exact ih _ hf (hat.append (.field hget (.here _))) (isDocument_of_get? hdoc hget) hown hm
      · exact ⟨w, hat.append (.field hget (.here _))⟩

theorem named_of_landmarks (hat : root.At place v) (hdoc : v.isDocument = true) (hes : entries path v = .ok es)
    (hms : landmarks path place v = .ok ms) (hm : m ∈ ms) (hcomponent : m.isComponent = true) :
    Named root es m := by
  induction v using parts_induction generalizing path place es ms with
  | single v hv =>
    rw [landmarks_single path place hv] at hms
    cases hms
    cases hm
  | arr items ih =>
    rw [landmarks] at hms
    rw [entries] at hes
    obtain ⟨j, x, hx, hcontainer, own, hown, hm⟩ := of_mem_landmarksItems hms hm hcomponent
    obtain ⟨own', hown', hsubset⟩ := itemEntries_subset hes hx
    rw [itemEntries, if_pos hcontainer] at hown'
    exact (ih x (mem_of_getElem? hx) (hat.append (.item hx (.here x))) (isDocument_of_getElem? hdoc hx)
      hown' hown hm).mono hsubset
  | obj kind fields ih =>
    obtain ⟨inner, hinner, hes⟩ := bind_eq_ok.mp hes
    obtain ⟨name?, inner', rest, hname, hinner', hrest, rfl⟩ := of_landmarks_obj hms
    -- Both walks go into the fields along the same path.
    cases hinner.symm.trans hinner'
    obtain hm | hm := mem_append.mp hm
    · obtain ⟨name, hmem, rfl⟩ := mem_map.mp hm
      rw [Option.mem_toList.mp hmem] at hname
      rw [inside, hname] at hinner
      cases hinner
      exact ⟨path, kind, fields, name, es, hat, hname, rfl, hes, Subset.refl es⟩
    · obtain ⟨f, hf, hcontainer, own, hown, hm⟩ := of_mem_landmarksFields hrest hm hcomponent
      obtain ⟨own', hown', hsubset⟩ := partEntries_subset hes hf
      have hdate : ¬ f.2.isJavaDate = true := fun hdate => not_component_of_isJavaDate hdate hown hm hcomponent
      rw [partEntries, if_neg hdate, if_pos hcontainer] at hown'
      obtain ⟨key, w, rfl, hget⟩ := exists_get?_of_mem hdoc hf
      exact (ih _ hf (hat.append (.field hget (.here _))) (isDocument_of_get? hdoc hget) hown' hown hm).mono hsubset

/-! ## From a path to a name -/

theorem at_namePlace (hdoc : v.isDocument = true)
    (hes : entries "" v = .ok es) (hl : ofDocument v = .ok l) (h : l.namePlace? (.str path) = some place) :
    ∃ spot key kind fields name own, place = spot ++ [.str "meta", .str "name"] ∧ v.At spot (.obj kind fields) ∧
      v.At place name ∧ componentName? fields = .ok (some name) ∧ path = child key name.display ∧
      entriesFields path fields = .ok own ∧ own ⊆ es := by
  obtain ⟨ms, hms, hl⟩ := bind_eq_ok.mp hl
  cases hl
  rw [namePlace?_foldl_add] at h
  obtain ⟨m, hlast, rfl⟩ : ∃ m, ((ms.filter (·.isComponent)).filter (Landmark.at path)).getLast? = some m ∧
      m.place ++ [.str "meta", .str "name"] = place := by
    simpa [namePlace?, lookup] using h
  obtain ⟨hm, hkey⟩ := mem_filter.mp (mem_of_getLast? hlast)
  obtain ⟨hm, hcomponent⟩ := mem_filter.mp hm
  obtain ⟨key, kind, fields, name, own, hat, hname, hown, hentries, hsubset⟩ :=
    named_of_landmarks (.here v) hdoc hes hms hm hcomponent
  have hpath : path = child key name.display := by
    rw [← display_ownKey, ← hown, (equals_str_iff _ _).mp hkey]
    rfl
  obtain ⟨metaKind, info, hmeta, hnamed, -⟩ := of_componentName? hname
  refine ⟨m.place, key, kind, fields, name, own, rfl, hat, hat.append ?_, hname, hpath, hpath ▸ hentries, hsubset⟩
  exact .field hmeta (.field hnamed (.here name))

theorem at_place (hdoc : v.isDocument = true)
    (hl : ofDocument v = .ok l) (h : l.place? (.str path) = some place) : ∃ w, v.At place w := by
  obtain ⟨ms, hms, hl⟩ := bind_eq_ok.mp hl
  cases hl
  rw [place?_foldl_add] at h
  obtain ⟨m, hlast, rfl⟩ : ∃ m, (ms.filter (Landmark.at path)).getLast? = some m ∧ m.place = place := by
    simpa [place?, lookup] using h
  exact at_of_landmarks (.here v) hdoc hms (mem_filter.mp (mem_of_getLast? hlast)).1

end Locator

namespace View

variable {fields : List (Key × Json)}

/-- Whether the name in fields is a text, and the object that holds it holds no other such object. -/
def isPlainMeta (fields : List (Key × Json)) : Bool :=
  match get? fields (.name "meta") with
  | some (.obj _ info) => !has info (.name "meta") && match get? info (.name "name") with
    | some name => name.str?.isSome
    | none => true
  | _ => true

/-- Whether every name in a view is a text, and no object that holds a name holds another such object. -/
def hasPlainMeta (v : Json) : Bool := v.everyObject isPlainMeta

theorem child_of_ne_nil {path : Text} (h : path ≠ []) (key : Text) : child path key = path ++ "." ++ key := by
  rw [child, if_neg]
  exact fun e => h (eq_of_beq e)

theorem child_ne_nil (path : Text) {key : Text} (h : key ≠ []) : child path key ≠ [] := by
  rw [child]
  split
  · exact h
  · simp [h]

theorem name_of_isPlainMeta (hname : componentName? fields = .ok (some name)) (hplain : isPlainMeta fields = true) :
    ∃ s, s ≠ [] ∧ name = .str s := by
  obtain ⟨kind, info, hmeta, hget, htrue⟩ := Locator.of_componentName? hname
  simp only [isPlainMeta, hmeta, hget, Bool.and_eq_true] at hplain
  cases name with
  | str s => exact ⟨s, by simpa [Json.isTrue] using htrue, rfl⟩
  | _ => cases hplain.2

theorem mem_entries_name {path name : Text} {es : Flat}
    (hname : componentName? fields = .ok (some (.str name))) (hplain : isPlainMeta fields = true) (hpath : path ≠ [])
    (hes : entriesFields path fields = .ok es) : (path ++ ".meta.name", .str name) ∈ es := by
  obtain ⟨kind, info, hmeta, hget, -⟩ := Locator.of_componentName? hname
  have hunnamed : componentName? info = .ok none := by
    simp only [isPlainMeta, hmeta, hget, Bool.and_eq_true, has] at hplain
    have hnone : get? info (.name "meta") = none := by simpa using hplain.1
    rw [componentName?, hnone]
  have hdate : ¬ (obj kind info).isJavaDate = true := by
    intro hdate
    obtain ⟨_, _, _, _, -, -, -, hfields⟩ := of_isJavaDate hdate
    cases hfields _ (mem_of_get? hget) with
    | inl h | inr h => cases h
  obtain ⟨own, hown, hsubset⟩ := Locator.partEntries_subset hes (mem_of_get? hmeta)
  have hinfo : entriesFields (child path "meta") info = .ok own := by
    rw [partEntries, if_neg hdate] at hown
    rw [← hown]
    change _ = entries (child path "meta") (.obj kind info)
    rw [entries, inside, hunnamed]
    rfl
  obtain ⟨entry, hentry, hsubset'⟩ := Locator.partEntries_subset hinfo (mem_of_get? hget)
  cases hentry
  have hmetapath : (path ++ "." ++ "meta" : Text) ≠ [] := by simp [Text.ofString]
  have hshow : child (child path "meta") "name" = path ++ ".meta.name" := by
    rw [child_of_ne_nil hpath, child_of_ne_nil hmetapath]
    simp [Text.ofString]
  rw [← hshow]
  exact hsubset (hsubset' mem_cons_self)

end View

theorem Locator.name_of_namePlace {es : Flat} {path : Text} {place : Path}
    (hdoc : v.isDocument = true) (hmeta : hasPlainMeta v = true) (hes : entries "" v = .ok es)
    (hdistinct : (es.map (·.1)).Nodup) (hl : ofDocument v = .ok l) (h : l.namePlace? (.str path) = some place)
    (hname : (path ++ ".meta.name", name) ∈ es) :
    ∃ spot s, place = spot ++ [.str "meta", .str "name"] ∧ name = .str s ∧ v.At place (.str s) := by
  obtain ⟨spot, key, kind, fields, stored, own, hplace, hat, hstored, hcomponent, hpath, hown, hsubset⟩ :=
    at_namePlace hdoc hes hl h
  have hplain := hat.of_everyObject hmeta
  obtain ⟨s, hs, rfl⟩ := name_of_isPlainMeta hcomponent hplain
  have hne : path ≠ [] := hpath ▸ child_ne_nil key hs
  have hentry := hsubset (mem_entries_name hcomponent hplain hne hown)
  exact ⟨spot, s, hplace, (Prod.mk.inj (inj_on_of_nodup_map hdistinct hname hentry rfl)).2, hstored⟩

/-! ## The components of a model -/

theorem Flat.of_mem_components (h : n ∈ flat.components) :
    ∃ name type, n.data = .component name type (.object []) ∧ (n.path ++ ".meta.name", name) ∈ flat := by
  obtain ⟨⟨path, name⟩, hmem, hn⟩ := mem_filterMap.mp h
  simp only at hn
  split at hn
  · rename_i hends
    cases hn
    obtain ⟨front, rfl⟩ := isSuffixOf_iff_suffix.mp hends
    refine ⟨name, _, rfl, ?_⟩
    have hbefore : Text.beforeLast ".meta.name" (front ++ ".meta.name") = front := by
      rw [Text.beforeLast, Text.rcut?_append_self]
      rfl
    rwa [hbefore]
  · cases hn

/-! ## Properties -/

namespace Flat

variable {owners : List Text}

/-- The property that an entry gives, with its path. -/
def propertyAt (flat : Flat) (e : Text × Json) : Text × Node :=
  let base := Text.dropIndices e.1
  (base, ⟨base, .property (.str (propertyName e.1)) e.2 (flat.persistence e.1) (flat.privateAccess e.1)⟩)

/-- The properties met so far, with what an entry adds. -/
def addProperty (flat : Flat) (owners : List Text) (seen : List (Text × Node)) (e : Text × Json) : List (Text × Node) :=
  if flat.isProperty owners e.1 && !has seen (Text.dropIndices e.1) then flat.propertyAt e :: seen else seen

/-- What is met of the properties: each path once, by an entry that is a property, and every such entry. -/
structure Meets (flat : Flat) (owners : List Text) (es : Flat) (seen : List (Text × Node)) : Prop where
  nodup : (seen.map (·.1)).Nodup
  entry : ∀ p ∈ seen, ∃ e ∈ es, flat.isProperty owners e.1 = true ∧ p = flat.propertyAt e
  all : ∀ e ∈ es, flat.isProperty owners e.1 = true → Text.dropIndices e.1 ∈ seen.map (·.1)

theorem meets_foldl (flat : Flat) (owners : List Text) (es : Flat) :
    flat.Meets owners es (es.foldl (flat.addProperty owners) []) := by
  induction es using reverseRecOn with
  | nil => exact ⟨nodup_nil, forall_mem_nil _, forall_mem_nil _⟩
  | append_singleton es e ih =>
    have hentry (p : Text × Node) (hp : p ∈ es.foldl (flat.addProperty owners) []) :
        ∃ e' ∈ es ++ [e], flat.isProperty owners e'.1 = true ∧ p = flat.propertyAt e' := by
      obtain ⟨e', he', h⟩ := ih.entry p hp
      exact ⟨e', mem_append_left [e] he', h⟩
    rw [foldl_concat, addProperty]
    split
    · next hnew =>
      rw [Bool.and_eq_true, Bool.not_eq_true', Bool.eq_false_iff, ne_eq, has, ← mem_keys_iff] at hnew
      refine ⟨nodup_cons.mpr ⟨hnew.2, ih.nodup⟩, forall_mem_cons.mpr ⟨?_, hentry⟩, fun e' he' h => ?_⟩
      · exact ⟨e, mem_append_right es mem_cons_self, hnew.1, rfl⟩
      · obtain he' | he' := mem_append.mp he'
        · exact mem_cons_of_mem _ (ih.all e' he' h)
        · rw [mem_singleton.mp he']
          exact mem_cons_self
    · next hold =>
      refine ⟨ih.nodup, hentry, fun e' he' h => ?_⟩
      obtain he' | he' := mem_append.mp he'
      · exact ih.all e' he' h
      · obtain rfl := mem_singleton.mp he'
        rw [h, Bool.true_and, Bool.not_eq_true', Bool.not_eq_false] at hold
        exact (mem_keys_iff _ _).mpr hold

theorem of_mem_properties (h : n ∈ flat.properties owners) :
    ∃ e ∈ flat, flat.isProperty owners e.1 = true ∧ n = (flat.propertyAt e).2 := by
  obtain ⟨p, hp, rfl⟩ := mem_map.mp h
  obtain ⟨e, he, hproperty, rfl⟩ := (flat.meets_foldl owners flat).entry p (mem_reverse.mp hp)
  exact ⟨e, he, hproperty, rfl⟩

theorem map_path_properties (flat : Flat) (owners : List Text) : (flat.properties owners).map (·.path) =
    ((flat.foldl (flat.addProperty owners) []).map (·.1)).reverse := by
  rw [← map_reverse]
  refine (map_map ..).trans (map_congr_left fun p hp => ?_)
  obtain ⟨e, -, -, rfl⟩ := (flat.meets_foldl owners flat).entry p (mem_reverse.mp hp)
  rfl

theorem mem_path_properties_iff {path : Text} : path ∈ (flat.properties owners).map (·.path) ↔
    ∃ e ∈ flat, flat.isProperty owners e.1 = true ∧ Text.dropIndices e.1 = path := by
  constructor
  · intro h
    obtain ⟨n, hn, rfl⟩ := mem_map.mp h
    obtain ⟨e, he, hproperty, rfl⟩ := of_mem_properties hn
    exact ⟨e, he, hproperty, rfl⟩
  · rintro ⟨e, he, hproperty, rfl⟩
    rw [map_path_properties, mem_reverse]
    exact (flat.meets_foldl owners flat).all e he hproperty

theorem kind_of_mem_properties (h : n ∈ flat.properties owners) : n.kind = .property := by
  obtain ⟨e, -, -, rfl⟩ := of_mem_properties h
  rfl

end Flat

/-! ## The nodes that rules are offered -/

namespace Model

variable {model : Model} (hmodel : build flat = .ok model)

include hmodel

theorem kind_of_mem_nodesOf {kind : NodeKind} (h : n ∈ model.nodesOf kind) : n.kind = kind := by
  obtain ⟨methods, -, hmodel⟩ := bind_eq_ok.mp hmodel
  cases hmodel
  have hofKind {nodes : List Node} (h : n ∈ ofKind nodes kind) : n.kind = kind := eq_of_beq (mem_filter.mp h).2
  cases kind with
  | component =>
    obtain ⟨name, type, hdata, -⟩ := Flat.of_mem_components h
    rw [Node.kind, hdata]
    rfl
  | property => exact Flat.kind_of_mem_properties h
  | _ => exact hofKind h

/-- The offered nodes of a kind are those that the model has, in their order. -/
theorem ofKind_offered (kind : NodeKind) : ofKind model.offered kind = model.nodesOf kind := by
  have hfilter (k : NodeKind) : (model.nodesOf k).filter (·.kind == kind) = if k = kind then model.nodesOf k else [] := by
    split
    · next h => exact filter_eq_self.mpr fun n hn => beq_iff_eq.mpr ((kind_of_mem_nodesOf hmodel hn).trans h)
    · next h =>
      exact filter_eq_nil_iff.mpr fun n hn heq => h ((kind_of_mem_nodesOf hmodel hn).symm.trans (beq_iff_eq.mp heq))
  rw [ofKind, offered, filter_flatMap]
  simp only [hfilter, offeredKinds]
  cases kind <;> simp

theorem mem_offered_iff_nodesOf : n ∈ model.offered ↔ n ∈ model.nodesOf n.kind := by
  rw [← ofKind_offered hmodel, ofKind, mem_filter]
  simp

/-- The components among the nodes that rules are offered are those of the flattened view. -/
theorem mem_components_of_offered (hn : n ∈ model.offered) (hkind : n.kind = .component) : n ∈ flat.components := by
  rw [mem_offered_iff_nodesOf hmodel, hkind] at hn
  obtain ⟨methods, -, hmodel⟩ := bind_eq_ok.mp hmodel
  cases hmodel
  exact hn

theorem mem_offered_iff_bindings (hkind : model.nodesOf n.kind = ofKind model.bindings n.kind) :
    n ∈ model.offered ↔ n ∈ flat.bindings := by
  rw [mem_offered_iff_nodesOf hmodel, hkind, ofKind, mem_filter]
  obtain ⟨methods, -, hmodel⟩ := bind_eq_ok.mp hmodel
  cases hmodel
  exact and_iff_left (beq_self_eq_true _)

end Model

end ViewLint
