import ViewLint.Proofs.Graft
import ViewLint.View.Locator

/-!
# Flattened paths and their places

The entries of a document and its landmarks are found by two walks of their own. They agree: the
landmarks that are no components stand for the entries, one by one and in order.

* `Locator.Marks`: a landmark stands for an entry of a document.
* **`Locator.places_agree_with_flatten`**: every flattened path is placed where its value stands.
-/

namespace ViewLint

open Json Fields List

namespace Json

mutual

/-- Whether no field of an object, at any depth, holds a point in time. -/
def freeOfDates : Json → Bool
  | .arr items => freeOfDatesItems items
  | .obj _ fields => freeOfDatesFields fields
  | _ => true

def freeOfDatesItems : List Json → Bool
  | [] => true
  | x :: rest => freeOfDates x && freeOfDatesItems rest

/-- Whether no field holds a point in time, and all are free of dates. -/
def freeOfDatesFields : List (Key × Json) → Bool
  | [] => true
  | (_, v) :: rest => !v.isJavaDate && freeOfDates v && freeOfDatesFields rest

end

theorem freeOfDatesItems_eq_true_iff {items : List Json} :
    freeOfDatesItems items = true ↔ ∀ x ∈ items, x.freeOfDates = true := by
  induction items with
  | nil => simp [freeOfDatesItems]
  | cons x items ih => rw [freeOfDatesItems, Bool.and_eq_true, ih, forall_mem_cons]

theorem freeOfDatesFields_eq_true_iff {fields : List (Key × Json)} :
    freeOfDatesFields fields = true ↔ ∀ f ∈ fields, f.2.isJavaDate = false ∧ f.2.freeOfDates = true := by
  induction fields with
  | nil => simp [freeOfDatesFields]
  | cons f fields ih => rw [freeOfDatesFields, Bool.and_eq_true, Bool.and_eq_true, ih, forall_mem_cons,
      Bool.not_eq_true']

end Json

/-- The entries of a value that is a field of another one. -/
def View.partEntries (here : Text) (v : Json) : Except Fault Flat :=
  if v.isJavaDate then .ok [(here ++ "._JavaDate", (v.get? "$ts").getD .null)]
  else if v.isContainer then entries here v
  else .ok [(here, v)]

namespace Locator

variable {fields : List (Key × Json)} {path : Text} {place : Path} {es : Flat} {ms : List Landmark}

open View

/-! ## The steps of the walks -/

def itemEntries (path : Text) (i : Nat) (x : Json) : Except Fault Flat :=
  if x.isContainer then entries (item path i) x else .ok [(item path i, x)]

/-- The landmarks of a value that is a part of another one. -/
def partLandmarks (key : Text) (place : Path) (v : Json) : Except Fault (List Landmark) :=
  if v.isContainer then landmarks key place v else .ok [⟨.str key, place, false⟩]

theorem entriesItems_eq (path : Text) (i : Nat) (items : List Json) :
    entriesItems path i items = row (fun x => itemEntries path x.2 x.1) (items.zipIdx i) := by
  induction items generalizing i with
  | nil => rfl
  | cons x items ih =>
    rw [entriesItems, zipIdx_cons, row_cons, itemEntries, ih]
    split <;> rfl

theorem entriesFields_eq (path : Text) (fields : List (Key × Json)) :
    entriesFields path fields = row (fun f => partEntries (child path f.1.display) f.2) fields := by
  induction fields with
  | nil => rfl
  | cons f fields ih =>
    rw [entriesFields, row_cons, partEntries, ih]
    split
    · rfl
    · split <;> rfl

theorem landmarksItems_eq (key : Text) (place : Path) (i : Nat) (items : List Json) :
    landmarksItems key place i items =
      row (fun x => partLandmarks (item key x.2) (place ++ [.int x.2]) x.1) (items.zipIdx i) := by
  induction items generalizing i with
  | nil => rfl
  | cons x items ih =>
    rw [landmarksItems, zipIdx_cons, row_cons, partLandmarks, ih]
    split <;> rfl

theorem landmarksFields_eq (key : Text) (place : Path) (fields : List (Key × Json)) : landmarksFields key place fields =
      row (fun f => partLandmarks (child key f.1.display) (place ++ [f.1.toJson]) f.2) fields := by
  induction fields with
  | nil => rfl
  | cons f fields ih =>
    rw [landmarksFields, row_cons, partLandmarks, ih]
    split <;> rfl

/-- The key under which a component is recorded. -/
def ownKey (key : Text) (name : Json) : Json :=
  if key == "" then name else .str (child key name.display)

/-- The key of a component is shown as the path of what stands inside. -/
theorem display_ownKey (key : Text) (name : Json) : (ownKey key name).display = child key name.display := by
  by_cases h : key == ""
  · simp [ownKey, h, child]
  · simp [ownKey, h, display]

theorem landmarks_named (key : Text) (place : Path) (kind : ObjectKind)
    {name : Json} (h : componentName? fields = .ok (some name)) :
    landmarks key place (.obj kind fields) =
      if (ownKey key name).isContainer then .error (ownKey key name).noKey
      else landmarksFields (child key name.display) place fields >>= fun rest =>
        .ok (⟨ownKey key name, place, true⟩ :: rest) := by
  rw [landmarks, h, ← display_ownKey]
  unfold ownKey
  simp only [bind, Except.bind]
  split <;> split <;> rfl

theorem landmarks_unnamed (key : Text) (place : Path) (kind : ObjectKind) (h : componentName? fields = .ok none) :
    landmarks key place (.obj kind fields) = landmarksFields key place fields := by
  rw [landmarks, h]
  rfl

/-! ## The two walks -/

/-- A landmark stands for an entry: it has the path of the entry, and its place leads to the value. -/
def Marks (root : Json) (e : Text × Json) (m : Landmark) : Prop :=
  m.key = .str e.1 ∧ root.Leads m.place e.2

def ofValues (ms : List Landmark) : List Landmark := ms.filter fun m => !m.isComponent

theorem ofValues_append (xs ys : List Landmark) : ofValues (xs ++ ys) = ofValues xs ++ ofValues ys :=
  filter_append ..

/-- An object records its name first, and then walks its fields along the path inside it. -/
theorem of_landmarks_obj {kind : ObjectKind} (h : landmarks path place (.obj kind fields) = .ok ms) :
    ∃ name? inner rest, componentName? fields = .ok name? ∧ inside path fields = .ok inner ∧
      landmarksFields inner place fields = .ok rest ∧
      ms = name?.toList.map (⟨ownKey path ·, place, true⟩) ++ rest := by
  rw [inside]
  cases hname : componentName? fields with
  | error e =>
    rw [landmarks, hname] at h
    cases h
  | ok name? =>
    cases name? with
    | none =>
      rw [landmarks_unnamed path place kind hname] at h
      exact ⟨none, path, ms, rfl, rfl, h, rfl⟩
    | some name =>
      rw [landmarks_named path place kind hname] at h
      split at h
      · cases h
      · obtain ⟨rest, hrest, h⟩ := bind_eq_ok.mp h
        cases h
        exact ⟨some name, _, rest, rfl, rfl, hrest, rfl⟩

section Marked

variable {root : Json}

theorem part_marked {v : Json} (hin : v.isContainer = true → entries path v = .ok es →
      landmarks path place v = .ok ms → Forall₂ (Marks root) es (ofValues ms)) (hroot : root.Leads place v)
    (hes : (if v.isContainer then entries path v else .ok [(path, v)]) = .ok es)
    (hms : partLandmarks path place v = .ok ms) : Forall₂ (Marks root) es (ofValues ms) := by
  rw [partLandmarks] at hms
  split at hes
  · next hc =>
    rw [if_pos hc] at hms
    exact hin hc hes hms
  · next hc =>
    rw [if_neg hc] at hms
    cases hes
    cases hms
    exact .cons ⟨rfl, hroot⟩ .nil

theorem row_marked {α : Type} {f : α → Except Fault Flat} {g : α → Except Fault (List Landmark)} {xs : List α}
    (h : ∀ x ∈ xs, ∀ es ms, f x = .ok es → g x = .ok ms → Forall₂ (Marks root) es (ofValues ms))
    (hes : row f xs = .ok es) (hms : row g xs = .ok ms) : Forall₂ (Marks root) es (ofValues ms) := by
  induction xs generalizing es ms with
  | nil => cases hes; cases hms; exact .nil
  | cons x xs ih =>
    rw [row_cons, bind_append_eq_ok] at hes hms
    obtain ⟨own, rest, hown, hrest, rfl⟩ := hes
    obtain ⟨mown, mrest, hmown, hmrest, rfl⟩ := hms
    obtain ⟨hx, hxs⟩ := forall_mem_cons.mp h
    rw [ofValues_append]
    exact rel_append (hx own mown hown hmown) (ih hxs hrest hmrest)

theorem entries_marked {v : Json} (hdoc : v.isDocument = true) (hdates : v.freeOfDates = true)
    (hroot : root.Leads place v) (hes : entries path v = .ok es) (hms : landmarks path place v = .ok ms) :
    Forall₂ (Marks root) es (ofValues ms) := by
  induction v using parts_induction generalizing path place es ms with
  | single v hv =>
    cases v with
    | arr _ | obj _ _ => cases hv
    | _ => cases hes; cases hms; exact .nil
  | arr items ih =>
    rw [entries, entriesItems_eq] at hes
    rw [landmarks, landmarksItems_eq] at hms
    refine row_marked (fun x hx own mown hown hmown => ?_) hes hms
    have hget := mem_zipIdx_iff_getElem?.mp hx
    have hmem := mem_of_getElem? hget
    have hx := hroot.append (leads_item items hget)
    exact part_marked (fun _ => ih x.1 hmem (isDocument_of_getElem? hdoc hget)
      (freeOfDatesItems_eq_true_iff.mp hdates x.1 hmem) hx) hx hown hmown
  | obj kind fields ih =>
    obtain ⟨inner, hinner, hes⟩ := bind_eq_ok.mp hes
    obtain ⟨name?, inner', rest, -, hinner', hrest, rfl⟩ := of_landmarks_obj hms
    cases hinner.symm.trans hinner'
    have hfields : Forall₂ (Marks root) es (ofValues rest) := by
      rw [entriesFields_eq] at hes
      rw [landmarksFields_eq] at hrest
      refine row_marked (fun f hf own mown hown hmown => ?_) hes hrest
      obtain ⟨hdate, hfree⟩ := freeOfDatesFields_eq_true_iff.mp hdates f hf
      rw [partEntries, if_neg (by simp [hdate])] at hown
      have hget := get?_of_mem hdoc hf
      have hx := hroot.append (leads_field kind hget)
      exact part_marked (fun _ => ih f hf (isDocument_of_get? hdoc hget) hfree hx) hx hown hmown
    rw [ofValues_append]
    cases name? with
    | none | some => exact hfields

end Marked

/-! ## Tables of places -/

theorem equals_str_iff (k : Json) (s : Text) : k.equals (.str s) = true ↔ k = .str s := by
  cases k <;> simp [equals, compareNumbers?, number?]

theorem str_equals_iff (s : Text) (k : Json) : (str s).equals k = true ↔ k = .str s := by
  cases k with
  | str t => simpa [equals] using eq_comm
  | _ => simp [equals, compareNumbers?, number?]

theorem lookup_cons (k : Json) (p : Path) (rest : List (Json × Path)) (key : Json) :
    lookup ((k, p) :: rest) key = if k.equals key then some p else lookup rest key := by
  unfold lookup
  rw [find?_cons]
  cases k.equals key <;> simp

theorem lookup_record (table : List (Json × Path)) (key : Json) (place : Path) (s : Text) :
    lookup (record table key place) (.str s) =
      if key.equals (.str s) then some place else lookup table (.str s) := by
  induction table with
  | nil => rw [record, lookup_cons]
  | cons entry rest ih =>
    obtain ⟨k, p⟩ := entry
    rw [record]
    split
    · next h =>
      rw [lookup_cons, lookup_cons]
      by_cases hk : k.equals (.str s) = true
      · have hkey : key.equals (.str s) = true := by
          rw [(equals_str_iff k s).mp hk, str_equals_iff] at h
          rw [h, str_equals_iff]
        rw [if_pos hk, if_pos hkey]
      · have hne : ¬ key.equals (.str s) = true := by
          intro hkey
          rw [equals_str_iff] at hkey
          rw [hkey] at h
          exact hk h
        simp [hk, hne]
    · next h =>
      rw [lookup_cons, lookup_cons, ih]
      by_cases hk : k.equals (.str s) = true
      · have hne : ¬ key.equals (.str s) = true := by
          intro hkey
          rw [equals_str_iff] at hkey hk
          rw [hkey, hk] at h
          exact h ((str_equals_iff s _).mpr rfl)
        simp [hk, hne]
      · simp [hk]

def Landmark.at (s : Text) (m : Landmark) : Bool := m.key.equals (.str s)

/-- **The last landmark counts**, whatever is recorded about it. -/
theorem lookup_foldl_record (f : Landmark → Path) (ms : List Landmark) (table : List (Json × Path)) (s : Text) :
    lookup (ms.foldl (fun t m => record t m.key (f m)) table) (.str s) =
      (((ms.filter (Landmark.at s)).getLast?).map f).or (lookup table (.str s)) := by
  induction ms generalizing table with
  | nil => simp
  | cons m ms ih =>
    rw [foldl_cons, ih, filter_cons, lookup_record, Landmark.at]
    split
    · rw [getLast?_cons]
      cases (ms.filter (Landmark.at s)).getLast? <;> simp
    · rfl

theorem place?_foldl_add (ms : List Landmark) (l : Locator) (s : Text) : (ms.foldl add l).place? (.str s) =
      (((ms.filter (Landmark.at s)).getLast?).map (·.place)).or (l.place? (.str s)) := by
  have hplaces : (ms.foldl add l).places = ms.foldl (fun t m => record t m.key m.place) l.places := by
    induction ms generalizing l with
    | nil => rfl
    | cons m ms ih => exact ih (l.add m)
  rw [place?, hplaces, lookup_foldl_record, place?]

theorem namePlace?_foldl_add (ms : List Landmark) (l : Locator) (s : Text) : (ms.foldl add l).namePlace? (.str s) =
      ((((ms.filter (·.isComponent)).filter (Landmark.at s)).getLast?).map
        fun m => m.place ++ [.str "meta", .str "name"]).or (l.namePlace? (.str s)) := by
  have hnames : (ms.foldl add l).names = (ms.filter (·.isComponent)).foldl
      (fun t m => record t m.key (m.place ++ [.str "meta", .str "name"])) l.names := by
    induction ms generalizing l with
    | nil => rfl
    | cons m ms ih =>
      rw [foldl_cons, ih, filter_cons, add]
      split <;> simp_all
  rw [namePlace?, hnames, lookup_foldl_record, namePlace?]

/-! ## The keys that are placed -/

def keysOf (table : List (Json × Path)) : List Json := table.map (·.1)

/-- A key is added to a table unless an equal one stands there. -/
theorem keysOf_record (table : List (Json × Path)) (key : Json) (place : Path) : keysOf (record table key place) =
      if (keysOf table).any (·.equals key) then keysOf table else keysOf table ++ [key] := by
  induction table with
  | nil => rfl
  | cons entry rest ih =>
    obtain ⟨k, p⟩ := entry
    rw [record]
    by_cases h : k.equals key = true
    · simp [h, keysOf]
    · have ih' : (record rest key place).map (·.1) =
          if (rest.map (·.1)).any (·.equals key) then rest.map (·.1) else rest.map (·.1) ++ [key] := ih
      simp only [h, keysOf, map_cons, any_cons, Bool.false_or, ih', Bool.false_eq_true, if_false]
      split <;> rfl

theorem str_mem_keysOf_record (table : List (Json × Path)) (key : Json) (place : Path) (s : Text) :
    .str s ∈ keysOf (record table key place) ↔ .str s ∈ keysOf table ∨ key = .str s := by
  rw [keysOf_record]
  split
  · next h =>
    refine ⟨.inl, fun h' => h'.elim id fun e => ?_⟩
    obtain ⟨k, hk, hkey⟩ := any_eq_true.mp h
    rw [e, equals_str_iff] at hkey
    exact hkey ▸ hk
  · rw [mem_append, mem_singleton, eq_comm (a := key)]

theorem str_mem_keysOf_places (ms : List Landmark) (l : Locator) (s : Text) :
    .str s ∈ keysOf (ms.foldl add l).places ↔ .str s ∈ keysOf l.places ∨ ∃ m ∈ ms, m.key = .str s := by
  induction ms generalizing l with
  | nil => simp
  | cons m ms ih =>
    rw [foldl_cons, ih, add, str_mem_keysOf_record]
    simp [or_assoc]

theorem str_mem_keysOf_names (ms : List Landmark) (l : Locator) (s : Text) : .str s ∈ keysOf (ms.foldl add l).names ↔
      .str s ∈ keysOf l.names ∨ ∃ m ∈ ms, m.isComponent = true ∧ m.key = .str s := by
  induction ms generalizing l with
  | nil => simp
  | cons m ms ih =>
    rw [foldl_cons, ih, add]
    by_cases h : m.isComponent = true
    · simp [h, str_mem_keysOf_record, or_assoc]
    · simp [h]

/-- The keys of a table that are no paths: the name of a component at the root may be any value. -/
def oddKeys (table : List (Json × Path)) : List Json := (keysOf table).filter (·.str?.isNone)

theorem oddKeys_record_str (table : List (Json × Path)) (s : Text) (place : Path) :
    oddKeys (record table (.str s) place) = oddKeys table := by
  rw [oddKeys, keysOf_record]
  split
  · rfl
  · simp [oddKeys, filter_append, str?]

theorem oddKeys_record (table : List (Json × Path)) {key : Json} (hkey : key.str?.isNone = true) (place : Path) :
    oddKeys (record table key place) =
      if (oddKeys table).any (·.equals key) then oddKeys table else oddKeys table ++ [key] := by
  have hany : (keysOf table).any (·.equals key) = (oddKeys table).any (·.equals key) := by
    rw [oddKeys, any_filter]
    congr 1
    funext k
    cases k with
    | str t =>
      have : ¬ (str t).equals key = true := by
        intro h
        rw [(str_equals_iff t key).mp h] at hkey
        exact absurd hkey (by simp [str?])
      simp [this]
    | _ => simp [str?]
  rw [oddKeys, keysOf_record, hany]
  split
  · rfl
  · simp [oddKeys, filter_append, hkey]

/-- The keys that are no paths stand for components, in the same order in both tables. -/
theorem oddKeys_foldl_add (ms : List Landmark) (l : Locator)
    (hms : ∀ m ∈ ofValues ms, ∃ s, m.key = .str s) (hl : oddKeys l.places = oddKeys l.names) :
    oddKeys (ms.foldl add l).places = oddKeys (ms.foldl add l).names := by
  induction ms generalizing l with
  | nil => exact hl
  | cons m ms ih =>
    have hrest : ∀ m' ∈ ofValues ms, ∃ s, m'.key = .str s := fun m' h' =>
      hms m' (by simp only [ofValues, mem_filter] at h' ⊢; exact ⟨mem_cons_of_mem _ h'.1, h'.2⟩)
    refine ih (l.add m) hrest ?_
    rw [add]
    by_cases hc : m.isComponent = true
    · simp only [hc, if_true]
      by_cases hodd : m.key.str?.isNone = true
      · rw [oddKeys_record _ hodd, oddKeys_record _ hodd, hl]
      · cases hkey : m.key with
        | str s => rw [oddKeys_record_str, oddKeys_record_str, hl]
        | _ => rw [hkey] at hodd; exact absurd rfl hodd
    · obtain ⟨s, hs⟩ := hms m (by simp [ofValues, hc])
      simp only [hc, Bool.false_eq_true, if_false]
      rw [hs, oddKeys_record_str, hl]

/-! ## The agreement -/

theorem getLast?_of_forall₂ {α β : Type} {R : α → β → Prop} {xs : List α} {ys : List β} {x : α}
    (h : Forall₂ R xs ys) (hx : xs.getLast? = some x) : ∃ y, ys.getLast? = some y ∧ R x y := by
  rw [getLast?_eq_head?_reverse] at hx ⊢
  rw [← forall₂_reverse_iff] at h
  cases hxs : xs.reverse with
  | nil => rw [hxs] at hx; cases hx
  | cons a as =>
    rw [hxs] at hx h
    cases hx
    obtain ⟨b, bs, hab, _, hys⟩ := forall₂_cons_left_iff.mp h
    exact ⟨b, by rw [hys]; rfl, hab⟩

section Agreement

variable {root : Json} {es : Flat} {ms : List Landmark}

theorem keys_marked {vs : List Landmark} (h : Forall₂ (Marks root) es vs) :
    vs.map (·.key) = es.map fun e => .str e.1 := by
  induction h with
  | nil => rfl
  | cons hm _ ih => rw [map_cons, map_cons, ih, hm.1]

theorem mem_ofValues_key_iff (h : Forall₂ (Marks root) es (ofValues ms)) (key : Json) :
    (∃ m ∈ ofValues ms, m.key = key) ↔ ∃ p ∈ keys es, key = .str p := by
  have hkeys : key ∈ (ofValues ms).map (·.key) ↔ key ∈ es.map fun e => str e.1 := by
    rw [keys_marked h]
  simp only [Fields.keys, mem_map] at hkeys ⊢
  rw [hkeys]
  simp [eq_comm]

theorem keys_places_iff (h : Forall₂ (Marks root) es (ofValues ms)) (key : Json) :
    key ∈ keysOf (ms.foldl add {}).places ↔ (∃ p ∈ keys es, key = .str p) ∨ key ∈ (ms.foldl add {}).components := by
  change _ ↔ _ ∨ key ∈ keysOf (ms.foldl add {}).names
  cases hkey : key.str? with
  | some s =>
    obtain rfl : key = .str s := by cases key <;> simp_all [str?]
    rw [str_mem_keysOf_places, str_mem_keysOf_names, ← mem_ofValues_key_iff h]
    constructor
    · rintro (hnone | ⟨m, hm, hk⟩)
      · cases hnone
      · by_cases hc : m.isComponent = true
        · exact .inr (.inr ⟨m, hm, hc, hk⟩)
        · exact .inl ⟨m, by simp [ofValues, hm, hc], hk⟩
    · rintro (⟨m, hm, hk⟩ | hnone | ⟨m, hm, _, hk⟩)
      · exact .inr ⟨m, (mem_filter.mp hm).1, hk⟩
      · cases hnone
      · exact .inr ⟨m, hm, hk⟩
  | none =>
    -- a key that is no path is met in both tables at once
    have hodd : oddKeys (ms.foldl add {}).places = oddKeys (ms.foldl add {}).names := by
      refine oddKeys_foldl_add ms {} (fun m hm => ?_) rfl
      obtain ⟨p, _, hp⟩ := (mem_ofValues_key_iff h m.key).mp ⟨m, hm, rfl⟩
      exact ⟨p, hp⟩
    have hiff : ∀ table, key ∈ keysOf table ↔ key ∈ oddKeys table := by
      simp [oddKeys, hkey]
    have hno : ¬ ∃ p ∈ keys es, key = .str p := by
      rintro ⟨p, _, rfl⟩
      cases hkey
    rw [hiff, hiff, hodd]
    simp [hno]

/-- A flattened path that is no component is placed where its value stands. -/
theorem place?_of_get? (h : Forall₂ (Marks root) es (ofValues ms)) {p : Text} {w : Json}
    (hget : Fields.get? (Fields.ofPairs es) p = some w)
    (hcomp : .str p ∉ (ms.foldl add {}).components) :
    ∃ place, (ms.foldl add {}).place? (.str p) = some place ∧ root.Leads place w := by
  have hvalues : ms.filter (Landmark.at p) = (ofValues ms).filter (Landmark.at p) := by
    rw [ofValues, filter_filter]
    refine filter_congr fun m hm => ?_
    by_cases hc : m.isComponent = true
    · have hkey : ¬ m.key.equals (.str p) = true := by
        intro e
        refine hcomp ((str_mem_keysOf_names ms {} p).mpr (.inr ⟨m, hm, hc, ?_⟩))
        rwa [equals_str_iff] at e
      simp [Landmark.at, hkey]
    · simp [hc]
  rw [Fields.get?_ofPairs, Option.map_eq_some_iff] at hget
  obtain ⟨e, he, rfl⟩ := hget
  have hsame : Relator.LiftFun (Marks root) (· ↔ ·) (fun e => (e.1 == p) = true)
      (fun m => Landmark.at p m = true) := by
    intro e m hm
    simp [Landmark.at, hm.1, equals_str_iff]
  obtain ⟨m, hm, hmark⟩ := getLast?_of_forall₂ (rel_filter hsame h) he
  refine ⟨m.place, ?_, hmark.2⟩
  rw [place?_foldl_add, hvalues, hm]
  rfl

end Agreement

/-- **Places agree with flattened paths.** The keys that are placed are the flattened paths together
with the components, and each flattened path that is no component is placed where its value stands. -/
theorem places_agree_with_flatten (v : Json) (flat : Flat) (l : Locator) (hdoc : v.isDocument = true)
    (hdates : v.freeOfDates = true) (hflat : flatten v = .ok flat) (hl : ofDocument v = .ok l) :
    (∀ key : Json, key ∈ l.places.map (·.1) ↔ (∃ p ∈ Fields.keys flat, key = .str p) ∨ key ∈ l.components) ∧
    ∀ (p : Text) (w : Json), Fields.get? flat p = some w → .str p ∉ l.components →
      ∃ place, l.place? (.str p) = some place ∧ v.getAt place = .ok w := by
  rw [View.flatten, flattenAt, map_eq_ok] at hflat
  obtain ⟨es, hes, rfl⟩ := hflat
  rw [ofDocument, bind_eq_ok] at hl
  obtain ⟨ms, hms, hl⟩ := hl
  cases hl
  have h := entries_marked hdoc hdates (Json.Leads.nil v) hes hms
  constructor
  · intro key
    simp only [Fields.mem_keys_ofPairs]
    exact keys_places_iff h key
  · intro p w hget hcomp
    obtain ⟨place, hplace, hleads⟩ := place?_of_get? h hget hcomp
    exact ⟨place, hplace, hleads.getAt⟩

/-- A component in which two values share one flattened path. -/
def sharedPath : Json :=
  .object [("meta", .object [("name", .str "A")]), ("a", .arr [.int 2]), ("a[0]", .int 1)]

theorem places_agree_with_flatten_shared : sharedPath.isDocument = true ∧ sharedPath.freeOfDates = true ∧
    ∃ flat l, flatten sharedPath = .ok flat ∧ ofDocument sharedPath = .ok l ∧
      ∃ place, l.place? (.str "A.a[0]") = some place ∧ sharedPath.getAt place = .ok (.int 1) := by
  refine ⟨by decide, by decide, _, _, rfl, rfl, ?_⟩
  refine (places_agree_with_flatten sharedPath _ _ (by decide) (by decide) rfl rfl).2 _ _ rfl ?_
  intro h
  obtain ⟨entry, hentry, hkey⟩ := mem_map.mp h
  obtain rfl := mem_singleton.mp hentry
  exact absurd (Json.str.inj hkey) (by decide)

end Locator

end ViewLint
