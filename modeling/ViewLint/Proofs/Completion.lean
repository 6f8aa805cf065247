import ViewLint.Proofs.Leaves

/-!
# Which views can be flattened

The name of a component is looked up in every object of a view. The lookup fails where the member `meta` is no
object, and a locator also fails where a name would have to be a key and cannot be one.

* `View.hasObjectMeta`, `View.HasKeyNames`: the two conditions.
* **`View.completes_iff`**: they are exactly what flattening and a locator need.
-/

namespace ViewLint

open List Json

namespace View

open Locator

variable {here inner : Text} {v : Json} {place : Path} {kind : ObjectKind} {fields : List (Key × Json)}
  {items : List Json}

/-! ## Flattening -/

/-- Whether the member `meta` of an object is an object, if there is one. -/
def hasObjectMeta (fields : List (Key × Json)) : Bool :=
  match Fields.get? fields (.name "meta") with
  | none | some (.obj _ _) => true
  | some _ => false

theorem exists_componentName?_iff : (∃ name?, componentName? fields = .ok name?) ↔ hasObjectMeta fields = true := by
  rw [componentName?, hasObjectMeta]
  cases hmeta : Fields.get? fields (.name "meta") with
  | none => simp
  | some info =>
    cases info with
    | obj kind info => cases hname : Fields.get? info (.name "name") <;> simp [hname]
    | _ => simp

theorem everyObject_of_isJavaDate (hdoc : v.isDocument = true) (h : v.isJavaDate = true) :
    v.everyObject hasObjectMeta = true := by
  refine everyObject_of_at hdoc fun place kind fields hat => ?_
  by_cases hne : place = []
  · subst hne
    obtain rfl := at_nil_iff.mp hat
    obtain ⟨name?, hname, -⟩ := map_eq_ok.mp (inside_of_isJavaDate h [])
    exact exists_componentName?_iff.mp ⟨name?, hname⟩
  · rw [not_isJavaDate_of_at hat hne] at h
    cases h

theorem everyObject_single (test : List (Key × Json) → Bool) (h : v.isContainer = false) :
    v.everyObject test = true := by
  cases v with
  | arr _ | obj _ _ => cases h
  | _ => rfl

theorem exists_entries_iff (here : Text) (hdoc : v.isDocument = true) :
    (∃ es, entries here v = .ok es) ↔ v.everyObject hasObjectMeta = true := by
  induction v using parts_induction generalizing here with
  | single v hv =>
    refine iff_of_true ⟨[], ?_⟩ (everyObject_single _ hv)
    cases v with
    | arr _ | obj _ _ => cases hv
    | _ => rfl
  | arr items ih =>
    rw [entries, entriesItems_eq, exists_row_iff, everyObject, everyObjectItems_eq_true_iff]
    refine (forall₂_congr fun x hx => ?_).trans forall_mem_zipIdx_fst
    have hmem := fst_mem_of_mem_zipIdx hx
    rw [itemEntries]
    split
    · exact ih x.1 hmem _ (isDocumentItems_eq_true_iff.mp hdoc x.1 hmem)
    · next hc => simp [everyObject_single _ (Bool.eq_false_iff.mpr hc)]
  | obj kind fields ih =>
    have hrow (inner : Text) : (∃ es, entriesFields inner fields = .ok es) ↔
        ∀ f ∈ fields, f.2.everyObject hasObjectMeta = true := by
      rw [entriesFields_eq, exists_row_iff]
      refine forall₂_congr fun f hf => ?_
      have hdocf := isDocument_of_mem hdoc hf
      rw [partEntries]
      split
      · next hdate => simp [everyObject_of_isJavaDate hdocf hdate]
      · split
        · exact ih f hf _ hdocf
        · next hc => simp [everyObject_single _ (Bool.eq_false_iff.mpr hc)]
    rw [entries, everyObject, Bool.and_eq_true, everyObjectFields_eq_true_iff, ← exists_componentName?_iff, inside]
    cases hname : componentName? fields with
    | error _ => simp [Except.map, bind, Except.bind]
    | ok name? => exact (hrow _).trans ⟨fun h => ⟨⟨_, rfl⟩, h⟩, And.right⟩

/-! ## Locators -/

/-- No object at the empty path has a name that cannot be a key. -/
def HasKeyNames (here : Text) (v : Json) : Prop :=
  ∀ place kind fields name, v.At place (.obj kind fields) → pathTo here v place = [] →
    componentName? fields = .ok (some name) → name.isContainer = false

theorem hasKeyNames_arr_iff : HasKeyNames here (.arr items) ↔
      ∀ (i : Nat) (x : Json), items[i]? = some x → HasKeyNames (item here i) x := by
  constructor
  · intro h i x hx place kind fields name hat hpath
    exact h (.int i :: place) kind fields name (.item hx hat) ((pathTo_item hx place).trans hpath)
  · intro h place kind fields name hat hpath
    cases hat with
    | item hx hat => exact h _ _ hx _ kind fields name hat ((pathTo_item hx _).symm.trans hpath)

theorem hasKeyNames_obj_iff (hinner : inside here fields = .ok inner) : HasKeyNames here (.obj kind fields) ↔
      (∀ name, here = [] → componentName? fields = .ok (some name) → name.isContainer = false) ∧
      ∀ key w, Fields.get? fields (.name key) = some w → HasKeyNames (child inner key) w := by
  constructor
  · intro h
    refine ⟨fun name hhere => h [] kind fields name (.here _) ((pathTo_nil ..).trans hhere), ?_⟩
    intro key w hw place kind' fields' name hat hpath
    exact h (.str key :: place) kind' fields' name (.field hw hat) ((pathTo_field hinner hw place).trans hpath)
  · rintro ⟨hroot, hparts⟩ place kind' fields' name hat hpath
    cases hat with
    | here => exact hroot name ((pathTo_nil ..).symm.trans hpath)
    | field hw hat => exact hparts _ _ hw _ kind' fields' name hat ((pathTo_field hinner hw _).symm.trans hpath)

section Landmarks

variable {key : Text}

theorem exists_partLandmarks_iff :
    (∃ ms, partLandmarks key place v = .ok ms) ↔ ∃ ms, landmarks key place v = .ok ms := by
  rw [partLandmarks]
  split
  · rfl
  · next hc => exact iff_of_true ⟨_, rfl⟩ ⟨_, landmarks_single _ _ (Bool.eq_false_iff.mpr hc)⟩

end Landmarks

theorem exists_landmarks_iff (here : Text) (place : Path) (hdoc : v.isDocument = true) :
    (∃ ms, landmarks here place v = .ok ms) ↔ v.everyObject hasObjectMeta = true ∧ HasKeyNames here v := by
  induction v using Json.parts_induction generalizing here place with
  | single v hv =>
    refine iff_of_true ⟨[], landmarks_single _ _ hv⟩ ⟨everyObject_single _ hv, ?_⟩
    intro place kind fields name hat
    cases hat <;> cases hv
  | arr items ih =>
    rw [landmarks, landmarksItems_eq, exists_row_iff, hasKeyNames_arr_iff, Json.everyObject,
      Json.everyObjectItems_eq_true_iff]
    simp only [exists_partLandmarks_iff, mem_zipIdx_iff_getElem?, Prod.forall]
    constructor
    · intro h
      have hparts (i : Nat) (x : Json) (hx : items[i]? = some x) :=
        (ih x (mem_of_getElem? hx) _ _ (Json.isDocument_of_getElem? hdoc hx)).mp (h x i hx)
      refine ⟨fun x hx => ?_, fun i x hx => (hparts i x hx).2⟩
      obtain ⟨i, hi⟩ := getElem?_of_mem hx
      exact (hparts i x hi).1
    · rintro ⟨hmeta, hnames⟩ x i hx
      have hmem := mem_of_getElem? hx
      exact (ih x hmem _ _ (Json.isDocument_of_getElem? hdoc hx)).mpr ⟨hmeta x hmem, hnames i x hx⟩
  | obj kind fields ih =>
    rw [Json.everyObject, Bool.and_eq_true, Json.everyObjectFields_eq_true_iff, ← exists_componentName?_iff]
    cases hname : componentName? fields with
    | error _ => rw [landmarks, hname]; simp [bind, Except.bind]
    | ok name? =>
      have hinner {inner : Text} (hinside : inside here fields = .ok inner) :
          (∃ ms, landmarksFields inner place fields = .ok ms) ↔ (∀ f ∈ fields, f.2.everyObject hasObjectMeta = true) ∧
            ∀ key w, Fields.get? fields (.name key) = some w → HasKeyNames (child inner key) w := by
        rw [landmarksFields_eq, exists_row_iff]
        simp only [exists_partLandmarks_iff]
        constructor
        · intro h
          have hparts (f : Key × Json) (hf : f ∈ fields) := (ih f hf _ _ (Json.isDocument_of_mem hdoc hf)).mp (h f hf)
          exact ⟨fun f hf => (hparts f hf).1, fun key w hw => (hparts _ (Json.mem_of_get? hw)).2⟩
        · rintro ⟨hmeta, hnames⟩ f hf
          obtain ⟨key, w, rfl, hget⟩ := Json.exists_get?_of_mem hdoc hf
          exact (ih _ hf _ _ (Json.isDocument_of_mem hdoc hf)).mpr ⟨hmeta _ hf, hnames key w hget⟩
      cases name? with
      | none =>
        have hinside : inside here fields = .ok here := by rw [inside, hname]; rfl
        rw [landmarks_unnamed _ _ _ hname, hinner hinside, hasKeyNames_obj_iff hinside]
        simp [hname]
      | some name =>
        have hinside : inside here fields = .ok (child here name.display) := by rw [inside, hname]; rfl
        have hown : (ownKey here name).isContainer = true ↔ here = [] ∧ name.isContainer = true := by
          by_cases hnil : here = []
          · simp [ownKey, hnil, Text.ofString]
          · simp [ownKey, hnil, Text.ofString, Json.isContainer]
        rw [landmarks_named _ _ _ hname, hasKeyNames_obj_iff hinside]
        split
        · next hc => simp [hname, hown.mp hc]
        · next hc =>
          have hrow : (∃ ms, (landmarksFields (child here name.display) place fields >>= fun rest =>
              .ok (⟨ownKey here name, place, true⟩ :: rest)) = .ok ms) ↔
                ∃ ms, landmarksFields (child here name.display) place fields = .ok ms := by
            cases landmarksFields (child here name.display) place fields <;> simp [bind, Except.bind]
          have hroot : here = [] → name.isContainer = false := by simpa [hown] using hc
          rw [hrow, hinner hinside]
          simp only [hname, Except.ok.injEq, Option.some.injEq, exists_eq', true_and]
          exact and_congr_right fun _ => (and_iff_right fun _ hhere heq => heq ▸ hroot hhere).symm

/-- **A view can be flattened** exactly if each member `meta` is an object, and it has a locator exactly if, besides, no
object at the empty path has a name that cannot be a key. -/
theorem completes_iff (v : Json) (hdoc : v.isDocument = true) :
    ((∃ flat, flatten v = .ok flat) ↔ v.everyObject hasObjectMeta = true) ∧
    ((∃ l, ofDocument v = .ok l) ↔ v.everyObject hasObjectMeta = true ∧ HasKeyNames "" v) := by
  constructor
  · rw [← exists_entries_iff "" hdoc, flatten, flattenAt]
    cases entries "" v <;> simp [Except.map]
  · rw [← exists_landmarks_iff "" [] hdoc, ofDocument]
    cases landmarks "" [] v <;> simp [bind, Except.bind, pure, Except.pure]

/-- A named component with a list of custom values. -/
def namedPanel : Json := .object [("meta", .object [("name", .str "Panel")]), ("custom", .arr [.object []])]

theorem completes_iff_namedPanel : namedPanel.isDocument = true ∧ (∃ flat, flatten namedPanel = .ok flat) ∧
    HasKeyNames "" namedPanel := by
  obtain ⟨hflatten, hlocator⟩ := completes_iff namedPanel (by decide)
  exact ⟨by decide, hflatten.mpr (by decide), (hlocator.mp ⟨_, rfl⟩).2⟩

/-- A custom value under the key `meta` that is no object. -/
def customMeta : Json := .object [("custom", .object [("meta", .null)])]

/-- A view that is a component with an object for a name. -/
def objectName : Json := .object [("meta", .object [("name", .object [("a", .int 1)])])]

/-- **Not every view can be flattened**, and not every one that can has a locator. -/
theorem not_completes_customMeta : customMeta.isDocument = true ∧ (¬ ∃ flat, flatten customMeta = .ok flat) ∧
    objectName.isDocument = true ∧ (∃ flat, flatten objectName = .ok flat) ∧
      ¬ ∃ l, ofDocument objectName = .ok l := by
  refine ⟨by decide, ?_, by decide, ⟨_, rfl⟩, ?_⟩
  · rintro ⟨_, h⟩
    cases h
  · rintro ⟨_, h⟩
    cases h

end View

end ViewLint
