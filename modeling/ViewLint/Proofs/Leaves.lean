import ViewLint.Proofs.InnerEntries

/-!
# The leaves of a view

The leaves of a value are the single values in it, and the points in time that are fields of objects.
Flattening lists them in document order, each under the path that leads to its place.

* `View.pathTo`: the path of a part of a value.
* `View.leaves`: the leaves in document order; `View.entries_eq_leaves`: flattening lists them.
* **`View.flatten_leaves`**: flattening loses nothing.
* **`View.date_is_single_iff`**: a point in time gives a single entry exactly if it is a field of an object.
-/

namespace ViewLint

variable {i : Nat} {key : Text} {l : Leaf}

open List Json Fields

namespace View

open Locator

variable {here inner : Text} {v w x : Json} {place : Path} {kind : ObjectKind} {fields : List (Key × Json)}
  {items : List Json} {es : Flat} {e : Text × Json}

/-! ## The paths of parts -/

/-- The path of a part of a value that stands at the path `here`. -/
def pathTo (here : Text) : Json → Path → Text
  | .obj _ fields, .str key :: place =>
    pathTo (child ((inside here fields).toOption.getD here) key) ((get? fields (.name key)).getD .null) place
  | .arr items, .int i :: place => pathTo (item here i.toNat) (items[i.toNat]?.getD .null) place
  | _, _ => here

theorem pathTo_nil (here : Text) (v : Json) : pathTo here v [] = here := by cases v <;> rfl

theorem pathTo_field (hinner : inside here fields = .ok inner) (h : get? fields (.name key) = some w) (place : Path) :
    pathTo here (.obj kind fields) (.str key :: place) = pathTo (child inner key) w place := by
  rw [pathTo, hinner, h]
  rfl

theorem pathTo_item (h : items[i]? = some x) (place : Path) :
    pathTo here (.arr items) (.int i :: place) = pathTo (item here i) x place := by
  rw [pathTo, Int.toNat_natCast, h]
  rfl

theorem pathTo_append (h : v.At place w) (q : Path) :
    pathTo here v (place ++ q) = pathTo (pathTo here v place) w q := by
  induction h generalizing here with
  | here v => rw [pathTo_nil, nil_append]
  | field hget _ ih =>
    rw [cons_append, pathTo, pathTo, hget]
    exact ih
  | item hget _ ih =>
    rw [cons_append, pathTo_item hget, pathTo_item hget]
    exact ih

/-! ## Leaves -/

/-- The number that a point in time stands for. -/
def stamp (v : Json) : Json := (v.get? "$ts").getD .null

/-- A leaf: its place, its value, and what follows the path of its place. -/
structure Leaf where
  place : Path
  value : Json
  ending : Text := ""

def Leaf.below (step : Json) (l : Leaf) : Leaf := { l with place := step :: l.place }

/-- The entry of a leaf of a value that stands at a path. -/
def Leaf.entry (here : Text) (v : Json) (l : Leaf) : Text × Json := (pathTo here v l.place ++ l.ending, l.value)

mutual

/-- The leaves of a value in document order. A point in time counts as one leaf if it is a field. -/
def leaves : Json → List Leaf
  | .arr items => leavesItems 0 items
  | .obj _ fields => leavesFields fields
  | v => [⟨[], v, ""⟩]

def leavesItems : Nat → List Json → List Leaf
  | _, [] => []
  | i, x :: rest => (leaves x).map (.below (.int i)) ++ leavesItems (i + 1) rest

def leavesFields : List (Key × Json) → List Leaf
  | [] => []
  | (k, v) :: rest =>
    (if v.isJavaDate then [⟨[], stamp v, "._JavaDate"⟩] else leaves v).map (.below k.toJson) ++ leavesFields rest

end

/-- The leaves of a value that is a field of another one. -/
def partLeaves (v : Json) : List Leaf := if v.isJavaDate then [⟨[], stamp v, "._JavaDate"⟩] else leaves v

theorem leavesItems_eq (i : Nat) (items : List Json) :
    leavesItems i items = (items.zipIdx i).flatMap fun x => (leaves x.1).map (.below (.int x.2)) := by
  induction items generalizing i with
  | nil => rfl
  | cons x items ih => rw [leavesItems, ih, zipIdx_cons, flatMap_cons]

theorem leavesFields_eq (fields : List (Key × Json)) :
    leavesFields fields = fields.flatMap fun f => (partLeaves f.2).map (.below f.1.toJson) := by
  induction fields with
  | nil => rfl
  | cons f fields ih => rw [leavesFields, ih, flatMap_cons, partLeaves]

theorem leaves_single (h : v.isContainer = false) : leaves v = [⟨[], v, ""⟩] := by
  cases v with
  | arr _ | obj _ _ => cases h
  | _ => simp [leaves]

section Own

variable (hin : v.isContainer = true → ∀ es, entries here v = .ok es → es = (leaves v).map (Leaf.entry here v))

include hin

theorem itemEntries_eq_leaves (h : (if v.isContainer then entries here v else .ok [(here, v)]) = .ok es) :
    es = (leaves v).map (Leaf.entry here v) := by
  split at h
  · next hc => exact hin hc es h
  · next hc =>
    cases h
    rw [leaves_single (by simpa using hc), map_singleton, Leaf.entry, pathTo_nil]
    exact congrArg (fun p => [(p, v)]) (append_nil here).symm

theorem partEntries_eq_leaves (h : partEntries here v = .ok es) : es = (partLeaves v).map (Leaf.entry here v) := by
  rw [partEntries] at h
  rw [partLeaves]
  split at h
  · next hdate =>
    cases h
    rw [if_pos hdate, map_singleton, Leaf.entry, pathTo_nil]
    rfl
  · next hdate =>
    rw [if_neg hdate]
    exact itemEntries_eq_leaves hin h

end Own

/-- The entries of a leaf below a step, where the step leads to a path. -/
theorem map_entry_below {step : Json} {u : Json} (h : ∀ q, pathTo here v (step :: q) = pathTo inner u q)
    (ls : List Leaf) : (ls.map (.below step)).map (Leaf.entry here v) = ls.map (Leaf.entry inner u) := by
  rw [map_map]
  refine map_congr_left fun l _ => ?_
  rw [Function.comp_apply, Leaf.entry, Leaf.entry, Leaf.below, h]

/-- **The entries of an object or an array** are those of its leaves. -/
theorem entries_eq_leaves (hv : v.isContainer = true) (hdoc : v.isDocument = true) (h : entries here v = .ok es) :
    es = (leaves v).map (Leaf.entry here v) := by
  induction v using parts_induction generalizing here es with
  | single v hsingle => rw [hsingle] at hv; cases hv
  | arr items ih =>
    rw [entries, entriesItems_eq] at h
    rw [leaves, leavesItems_eq, map_flatMap]
    refine eq_flatMap_of_row h fun x hx own hown => ?_
    have hget := mem_zipIdx_iff_getElem?.mp hx
    rw [map_entry_below (pathTo_item hget)]
    exact itemEntries_eq_leaves (fun hc es hes =>
      ih x.1 (mem_of_getElem? hget) hc (isDocument_of_getElem? hdoc hget) hes) hown
  | obj kind fields ih =>
    obtain ⟨inner, hinner, h⟩ := bind_eq_ok.mp h
    rw [entriesFields_eq] at h
    rw [leaves, leavesFields_eq, map_flatMap]
    refine eq_flatMap_of_row h fun f hf own hown => ?_
    obtain ⟨key, w, rfl, hget⟩ := exists_get?_of_mem hdoc hf
    refine Eq.trans ?_ (map_entry_below (pathTo_field hinner hget) _).symm
    exact partEntries_eq_leaves (fun hc es hes => ih _ hf hc (isDocument_of_get? hdoc hget) hes) hown

/-! ## Distinct paths -/

/-- What follows a key in a path. -/
def StartsWithStop (t : Text) : Prop := ∀ stop s, t = stop :: s → stop ∈ stops

theorem word_append_inj {a b s t : Text} (ha : IsWord a) (hb : IsWord b) (hs : StartsWithStop s)
    (ht : StartsWithStop t) (h : a ++ s = b ++ t) : a = b := by
  have hshort {a b s t : Text} (hb : IsWord b) (hs : StartsWithStop s) (h : a ++ s = b ++ t)
      (hle : a.length ≤ b.length) : a = b := by
    obtain ⟨u, rfl⟩ : a <+: b := prefix_of_prefix_length_le ⟨s, h⟩ (prefix_append b t) hle
    rw [append_assoc] at h
    cases u with
    | nil => exact (append_nil a).symm
    | cons c u => exact absurd (by simp) (hb c (hs c _ (append_cancel_left h)))
  obtain hle | hle := Nat.le_total a.length b.length
  · exact hshort hb hs h hle
  · exact (hshort ha ht h.symm hle).symm

theorem child_append_inj {k k' s t : Text} (h : child here k ++ s = child here k' ++ t) : k ++ s = k' ++ t := by
  by_cases hnil : here = []
  · subst hnil
    exact h
  · rw [child_of_ne_nil hnil, child_of_ne_nil hnil] at h
    simp only [append_assoc] at h
    exact append_cancel_left (append_cancel_left h)

theorem exists_of_mem_partEntries (hhere : here ≠ []) (h : partEntries here v = .ok es) (he : e ∈ es) :
    ∃ t, e.1 = here ++ t ∧ StartsWithStop t := by
  rw [partEntries] at h
  split at h
  · cases h
    rw [mem_singleton.mp he]
    refine ⟨_, rfl, fun stop s hs => ?_⟩
    rw [← (cons.inj hs).1]
    decide
  · split at h
    · obtain ⟨stop, hstop, r, hr⟩ : ∃ stop ∈ stops, ∃ r, e.1 = here ++ stop :: r := by
        cases v with
        | arr items => exact ⟨_, by decide, exists_bracket_of_entries h he⟩
        | obj kind fields => exact ⟨_, by decide, exists_dot_of_entries hhere h he⟩
        | _ => cases h; cases he
      refine ⟨_, hr, fun stop' s hs => ?_⟩
      rwa [← (cons.inj hs).1]
    · cases h
      rw [mem_singleton.mp he]
      exact ⟨[], (append_nil here).symm, fun _ _ h => by cases h⟩

/-- Whether all keys are words that no path goes on after. -/
def hasPlainKeys (fields : List (Key × Json)) : Bool := fields.all fun f => f.1.display ≠ [] ∧ IsWord f.1.display

theorem nodup_entriesItems (hown : ∀ x ∈ items, ∀ j own, itemEntries here j x = .ok own → (own.map (·.1)).Nodup)
    (h : entriesItems here 0 items = .ok es) : (es.map (·.1)).Nodup := by
  rw [entriesItems_eq] at h
  have hstart {j : Nat} {x : Json} {own : Flat} {e : Text × Json} (hx : itemEntries here j x = .ok own)
      (he : e ∈ own) : item here j <+: e.1 := by
    rw [itemEntries] at hx
    split at hx
    · exact prefix_of_mem_entries hx he
    · cases hx
      rw [mem_singleton.mp he]
  refine nodup_row h (fun x hx => hown x.1 (fst_mem_of_mem_zipIdx hx) x.2) ?_
  have hdistinct : (items.zipIdx.map Prod.snd).Nodup := by
    rw [zipIdx_map_snd]
    exact nodup_range'
  refine (pairwise_map.mp hdistinct).imp fun hne own own' hx hx' e he e' he' heq => hne ?_
  obtain ⟨s, hs⟩ := hstart hx he
  obtain ⟨t, ht⟩ := hstart hx' he'
  exact (Component.item_append_inj (hs.trans (heq.trans ht.symm))).1

theorem nodup_entriesFields (hown : ∀ f ∈ fields, ∀ here own, partEntries here f.2 = .ok own → (own.map (·.1)).Nodup)
    (hdoc : isDocumentFields fields = true) (hkeys : hasPlainKeys fields = true)
    (h : entriesFields here fields = .ok es) : (es.map (·.1)).Nodup := by
  rw [entriesFields_eq] at h
  refine nodup_row h (fun f hf => hown f hf _) ((pairwise_map.mp (nodup_display hdoc)).imp_of_mem ?_)
  intro f g hf hg hne own own' hf' hg' e he e' he' heq
  have hkey := of_decide_eq_true (all_eq_true.mp hkeys f hf)
  have hkey' := of_decide_eq_true (all_eq_true.mp hkeys g hg)
  obtain ⟨s, hs, hstop⟩ := exists_of_mem_partEntries (child_ne_nil here hkey.1) hf' he
  obtain ⟨t, ht, hstop'⟩ := exists_of_mem_partEntries (child_ne_nil here hkey'.1) hg' he'
  exact hne (word_append_inj hkey.2 hkey'.2 hstop hstop' (child_append_inj (hs.symm.trans (heq.trans ht))))

/-- **No two entries share a path**, whatever the names of the components are. -/
theorem nodup_entries (hdoc : v.isDocument = true) (hkeys : v.everyObject hasPlainKeys = true)
    (h : entries here v = .ok es) : (es.map (·.1)).Nodup := by
  induction v using parts_induction generalizing here es with
  | single v hv =>
    cases v with
    | arr _ | obj _ _ => cases hv
    | _ => cases h; exact nodup_nil
  | arr items ih =>
    refine nodup_entriesItems (fun x hx j own hown => ?_) h
    rw [itemEntries] at hown
    split at hown
    · exact ih x hx (isDocumentItems_eq_true_iff.mp hdoc x hx) (everyObjectItems_eq_true_iff.mp hkeys x hx) hown
    · cases hown
      exact nodup_singleton _
  | obj kind fields ih =>
    obtain ⟨inner, -, h⟩ := bind_eq_ok.mp h
    rw [everyObject, Bool.and_eq_true] at hkeys
    refine nodup_entriesFields (fun f hf here own hown => ?_) hdoc hkeys.1 h
    rw [partEntries] at hown
    split at hown
    · cases hown
      exact nodup_singleton _
    · split at hown
      · exact ih f hf (isDocument_of_mem hdoc hf) (everyObjectFields_eq_true_iff.mp hkeys.2 f hf) hown
      · cases hown
        exact nodup_singleton _

/-- **Flattening loses nothing.** The flattened form of an object or an array has one entry for each leaf, in
document order, and no two leaves share a path. -/
theorem flatten_leaves (v : Json) (flat : Flat) (hv : v.isContainer = true) (hdoc : v.isDocument = true)
    (hkeys : v.everyObject hasPlainKeys = true) (h : flatten v = .ok flat) :
    flat = (leaves v).map (Leaf.entry "" v) ∧ ((leaves v).map fun l => (l.entry "" v).1).Nodup := by
  obtain ⟨es, hes, rfl⟩ := map_eq_ok.mp h
  have hnodup := nodup_entries hdoc hkeys hes
  have hleaves := entries_eq_leaves hv hdoc hes
  rw [ofPairs_of_nodup hnodup]
  rw [hleaves, map_map] at hnodup
  exact ⟨hleaves, hnodup⟩

/-- A point in time as it is stored. -/
def newYear : Json := .object [("$", .arr [.str "ts", .int 192, .int 0]), ("$ts", .int 1704067200000)]

/-- A view whose component has a name that reads like a path. -/
def dottedName : Json := .object [("custom", .object [("start", newYear), ("days", .arr [newYear])]),
  ("root", .object [("meta", .object [("name", .str "root.b[0]")]), ("children", .arr [.object [("c", .int 1)]]),
    ("b", .arr [.bool true, .null])])]

theorem flatten_leaves_dottedName : dottedName.isContainer = true ∧ dottedName.isDocument = true ∧
    dottedName.everyObject hasPlainKeys = true ∧ ∃ flat, flatten dottedName = .ok flat ∧
      flat = (leaves dottedName).map (Leaf.entry "" dottedName) ∧
      ((leaves dottedName).map fun l => (l.entry "" dottedName).1).Nodup :=
  ⟨rfl, by decide, by decide, _, rfl, flatten_leaves dottedName _ rfl (by decide) (by decide) rfl⟩

/-- A single value is a leaf, and yet gives no entry. -/
theorem flatten_omits_single : (Json.int 5).isDocument = true ∧ (Json.int 5).everyObject hasPlainKeys = true ∧
    flatten (.int 5) = .ok [] ∧ (leaves (.int 5)).map (Leaf.entry "" (.int 5)) = [(([] : Text), .int 5)] :=
  ⟨rfl, rfl, rfl, rfl⟩

/-! ## Points in time -/

theorem mem_leavesFields_iff : l ∈ leavesFields fields ↔
      ∃ f ∈ fields, ∃ l' ∈ partLeaves f.2, l = l'.below f.1.toJson := by
  simp only [leavesFields_eq, mem_flatMap, mem_map, eq_comm]

theorem mem_leaves_item_iff (hget : items[i]? = some x) :
    l ∈ leaves (.arr items) ∧ .int i :: place <+: l.place ↔
      ∃ l' ∈ leaves x, place <+: l'.place ∧ l = l'.below (.int i) := by
  rw [leaves, leavesItems_eq, mem_flatMap]
  constructor
  · rintro ⟨⟨y, hy, hl⟩, hplace⟩
    obtain ⟨l', hl', rfl⟩ := mem_map.mp hl
    obtain ⟨hstep, hbelow⟩ := cons_prefix_cons.mp hplace
    obtain rfl : i = y.2 := by simpa [Int.ofNat_inj] using hstep
    cases hget.symm.trans (mem_zipIdx_iff_getElem?.mp hy)
    exact ⟨l', hl', hbelow, rfl⟩
  · rintro ⟨l', hl', hbelow, rfl⟩
    exact ⟨⟨(x, i), mem_zipIdx_iff_getElem?.mpr hget, mem_map_of_mem hl'⟩, cons_prefix_cons.mpr ⟨rfl, hbelow⟩⟩

theorem mem_leaves_field_iff (hdoc : isDocumentFields fields = true) (hget : get? fields (.name key) = some w) :
    l ∈ leaves (.obj kind fields) ∧ .str key :: place <+: l.place ↔
      ∃ l' ∈ partLeaves w, place <+: l'.place ∧ l = l'.below (.str key) := by
  rw [leaves, mem_leavesFields_iff]
  constructor
  · rintro ⟨⟨f, hf, l', hl', rfl⟩, hbelow⟩
    obtain ⟨hstep, hplace⟩ := cons_prefix_cons.mp hbelow
    obtain ⟨name, w, rfl, hget'⟩ := exists_get?_of_mem hdoc hf
    cases hstep
    cases hget.symm.trans hget'
    exact ⟨l', hl', hplace, rfl⟩
  · rintro ⟨l', hl', hbelow, rfl⟩
    exact ⟨⟨_, mem_of_get? hget, l', hl', rfl⟩, cons_prefix_cons.mpr ⟨rfl, hbelow⟩⟩

/-- Nothing that stands for a point in time holds an object. -/
theorem not_isJavaDate_of_at (hat : v.At place (.obj kind fields)) (hne : place ≠ []) : v.isJavaDate = false := by
  rw [Bool.eq_false_iff]
  intro hdate
  have hsingle {u : Json} {q : Path} (hu : u.isContainer = false) : ¬ u.At q (.obj kind fields) := by
    intro h
    cases h <;> cases hu
  cases hat with
  | here => exact hne rfl
  | item => cases hdate
  | field hget hat =>
    obtain ⟨tag, precision, nanos, stamp, hprecision, hnanos, hstamp, hfields⟩ := of_isJavaDate hdate
    obtain h | h := hfields _ (mem_of_get? hget)
    · cases h
      cases hat with
      | item hx hat =>
        have hmem := mem_of_getElem? hx
        simp only [mem_cons, not_mem_nil, or_false] at hmem
        obtain rfl | rfl | rfl := hmem
        · exact hsingle rfl hat
        · exact hsingle (isContainer_of_isNumber hprecision) hat
        · exact hsingle (isContainer_of_isNumber hnanos) hat
    · cases h
      exact hsingle (isContainer_of_isNumber hstamp) hat

/-- A leaf of a part as a leaf of the whole. -/
def Leaf.under (place : Path) (l : Leaf) : Leaf := { l with place := place ++ l.place }

/-- The leaves of a part that holds an object. -/
theorem mem_leaves_iff_of_at {u step : Json} (hdoc : v.isDocument = true) (hat : v.At place u)
    (hin : u.At [step] (.obj kind fields)) :
    l ∈ leaves v ∧ place <+: l.place ↔ ∃ l' ∈ leaves u, l = l'.under place := by
  induction hat generalizing l with
  | here => simp [Leaf.under]
  | field hget hat ih =>
    have hdate := not_isJavaDate_of_at (hat.append hin) (by simp)
    rw [mem_leaves_field_iff hdoc hget, partLeaves, hdate]
    simp only [Bool.false_eq_true, if_false, ← and_assoc, ih (isDocument_of_get? hdoc hget) hin]
    grind [Leaf.under, Leaf.below]
  | item hget hat ih =>
    rw [mem_leaves_item_iff hget]
    simp only [← and_assoc, ih (isDocument_of_getElem? hdoc hget) hin]
    grind [Leaf.under, Leaf.below]

theorem exists_obj_of_isJavaDate (h : w.isJavaDate = true) : ∃ kind fields, w = .obj kind fields := by
  cases w with
  | obj kind fields => exact ⟨kind, fields, rfl⟩
  | _ => cases h

theorem get?_stamp (h : w.isJavaDate = true) : w.get? "$ts" = some (stamp w) := by
  cases w with
  | obj kind fields =>
    rw [isJavaDate] at h
    split at h
    · next hstamp => rw [stamp, Json.get?, hstamp]; rfl
    · cases h
  | _ => cases h

theorem inside_of_isJavaDate (h : (obj kind fields).isJavaDate = true) (here : Text) :
    inside here fields = .ok here := by
  obtain ⟨tag, precision, nanos, stamp, -, -, -, hfields⟩ := of_isJavaDate h
  cases hname : get? fields (.name "meta") with
  | none => rw [inside, componentName?, hname]; rfl
  | some info => cases hfields _ (mem_of_get? hname) with
    | inl h | inr h => cases h

/-- A flattened form has one entry for a point in time at a path, and none for what the object there holds. -/
def IsSingleEntry (flat : Flat) (path : Text) (date : Json) : Prop :=
  get? flat (path ++ "._JavaDate") = some (stamp date) ∧ ∀ e ∈ flat, ¬ (path ++ ".$" : Text) <+: e.1

/-- No leaf elsewhere has a path that belongs to the point in time at a place. -/
def IsApart (v : Json) (place : Path) : Prop :=
  ∀ l ∈ leaves v, ¬ place <+: l.place → (l.entry "" v).1 ≠ pathTo "" v place ++ "._JavaDate" ∧
      ¬ (pathTo "" v place ++ ".$" : Text) <+: (l.entry "" v).1

theorem mem_flatten_leaves {flat : Flat} (hv : v.isContainer = true) (hdoc : v.isDocument = true)
    (h : flatten v = .ok flat) : (flat.map (·.1)).Nodup ∧ (∀ e ∈ flat, ∃ l ∈ leaves v, e = l.entry "" v) ∧
      ∀ l ∈ leaves v, ∃ e ∈ flat, e.1 = (l.entry "" v).1 := by
  obtain ⟨es, hes, rfl⟩ := map_eq_ok.mp h
  obtain rfl := entries_eq_leaves hv hdoc hes
  refine ⟨nodup_ofPairs _, ?_, ?_⟩
  · intro e he
    obtain ⟨l, hl, rfl⟩ := mem_map.mp (mem_of_mem_ofPairs he)
    exact ⟨l, hl, rfl⟩
  · intro l hl
    exact mem_map.mp ((mem_keys_ofPairs _ _).mpr (mem_map_of_mem (mem_map_of_mem hl)))

theorem isContainer_of_at (h : v.At place w) (hne : place ≠ []) : v.isContainer = true := by
  cases h with
  | here => exact absurd rfl hne
  | field | item => rfl

section Date

variable {date : Json} {flat : Flat} (hdoc : v.isDocument = true) (h : flatten v = .ok flat)
  (hdate : date.isJavaDate = true)

include hdoc h hdate

theorem isSingleEntry_field (hat : v.At place (.obj kind fields))
    (hget : get? fields (.name key) = some date) (hapart : IsApart v (place ++ [.str key])) :
    IsSingleEntry flat (pathTo "" v (place ++ [.str key])) date := by
  have hstep : (obj kind fields).At [.str key] date := .field hget (.here date)
  obtain ⟨hnodup, hentry, hleaf⟩ := mem_flatten_leaves (isContainer_of_at (hat.append hstep) (by simp)) hdoc h
  have hpart : partLeaves date = [⟨[], stamp date, "._JavaDate"⟩] := if_pos hdate
  obtain ⟨dkind, dfields, rfl⟩ := exists_obj_of_isJavaDate hdate
  have hbelow {l : Leaf} := mem_leaves_iff_of_at hdoc hat hstep (l := l)
  have hfield {l : Leaf} : l ∈ leaves (.obj kind fields) ∧ [.str key] <+: l.place ↔ _ :=
    mem_leaves_field_iff (isDocument_of_at hdoc hat) hget
  -- The only leaf below the place is that of the point in time itself.
  have honly (l : Leaf) (hl : l ∈ leaves v) (hunder : place ++ [.str key] <+: l.place) :
      l.entry "" v = (pathTo "" v (place ++ [.str key]) ++ "._JavaDate", stamp (.obj dkind dfields)) := by
    obtain ⟨l', hl', rfl⟩ := hbelow.mp ⟨hl, (prefix_append place _).trans hunder⟩
    obtain ⟨l'', hl'', -, rfl⟩ := hfield.mp ⟨hl', (prefix_append_right_inj place).mp hunder⟩
    rw [hpart, mem_singleton] at hl''
    rw [hl'']
    rfl
  constructor
  · have hown := (hfield.mpr ⟨⟨[], _, _⟩, hpart ▸ mem_singleton_self _, nil_prefix, rfl⟩).1
    obtain ⟨e, he, hpath⟩ := hleaf _ (hbelow.mpr ⟨_, hown, rfl⟩).1
    refine get?_of_nodup hnodup ?_
    obtain ⟨l, hl, rfl⟩ := hentry e he
    by_cases hplace : place ++ [.str key] <+: l.place
    · rwa [honly l hl hplace] at he
    · exact absurd hpath (hapart l hl hplace).1
  · intro e he hbelow
    obtain ⟨l, hl, rfl⟩ := hentry e he
    by_cases hplace : place ++ [.str key] <+: l.place
    · rw [honly l hl hplace, prefix_append_right_inj] at hbelow
      exact absurd hbelow (by decide)
    · exact (hapart l hl hplace).2 hbelow

/-- An item gives an entry for its number. -/
theorem not_isSingleEntry_item (hat : v.At place (.arr items)) (hget : items[i]? = some date) :
    ¬ IsSingleEntry flat (pathTo "" v (place ++ [.int i])) date := by
  have hstep : (arr items).At [.int i] date := .item hget (.here date)
  obtain ⟨-, -, hleaf⟩ := mem_flatten_leaves (isContainer_of_at (hat.append hstep) (by simp)) hdoc h
  obtain ⟨kind, fields, rfl⟩ := exists_obj_of_isJavaDate hdate
  have hstamp := get?_stamp hdate
  have hsingle : (stamp (.obj kind fields)).isContainer = false := isContainer_stamp hdate
  have hnumber : ⟨[.str "$ts"], stamp (.obj kind fields), ""⟩ ∈ leaves (.obj kind fields) := by
    refine mem_leavesFields_iff.mpr ⟨_, mem_of_get? hstamp, ⟨[], _, ""⟩, ?_, rfl⟩
    rw [partLeaves, isJavaDate_of_single hsingle, leaves_single hsingle]
    exact mem_singleton_self _
  have hitem := (mem_leaves_item_iff hget).mpr ⟨_, hnumber, nil_prefix, rfl⟩
  obtain ⟨e, he, hpath⟩ := hleaf _ ((mem_leaves_iff_of_at hdoc hat hstep).mpr ⟨_, hitem.1, rfl⟩).1
  have hne : pathTo "" v (place ++ [.int i]) ≠ [] := by
    rw [pathTo_append hat, pathTo_item hget, pathTo_nil]
    exact item_ne_nil _ i
  have hplace : place ++ [.int i, .str "$ts"] = place ++ [.int i] ++ [.str "$ts"] := by simp
  refine fun hsingle => hsingle.2 e he ?_
  rw [hpath]
  change _ <+: pathTo "" v (place ++ [.int i, .str "$ts"]) ++ _
  rw [hplace, pathTo_append (hat.append hstep), pathTo_field (inside_of_isJavaDate hdate _) hstamp, pathTo_nil,
    child_of_ne_nil hne]
  exact ⟨"ts", by simp [Leaf.under, Leaf.below, Text.ofString]⟩

end Date

/-- **A point in time gives a single entry exactly if it is a field of an object**, provided that no other leaf has
a path that belongs to it. -/
theorem date_is_single_iff (v date : Json) (place : Path) (flat : Flat) (hdoc : v.isDocument = true)
    (h : flatten v = .ok flat) (hat : v.At place date) (hne : place ≠ []) (hdate : date.isJavaDate = true)
    (hapart : IsApart v place) :
    IsSingleEntry flat (pathTo "" v place) date ↔ ∃ front key, place = front ++ [.str key] := by
  obtain ⟨front, step, rfl⟩ := (eq_nil_or_concat place).resolve_left hne
  rw [concat_eq_append] at *
  obtain ⟨u, hu, hstep⟩ := at_append_iff.mp hat
  obtain ⟨kind, fields, key, w, rfl, rfl, hget, hw⟩ | ⟨items, i, w, rfl, rfl, hget, hw⟩ := at_cons_iff.mp hstep
  · obtain rfl := at_nil_iff.mp hw
    exact iff_of_true (isSingleEntry_field hdoc h hdate hu hget hapart) ⟨front, key, rfl⟩
  · obtain rfl := at_nil_iff.mp hw
    refine iff_of_false (not_isSingleEntry_item hdoc h hdate hu hget) ?_
    rintro ⟨front', key, heq⟩
    cases (append_inj' heq rfl).2

/-- A view that holds a point in time as a field and as an item. -/
def twoDays : Json := .object [("custom", .object [("start", newYear), ("days", .arr [newYear])])]

theorem date_is_single_iff_twoDays : twoDays.isDocument = true ∧ newYear.isJavaDate = true ∧
    ∃ flat, flatten twoDays = .ok flat ∧ IsSingleEntry flat "custom.start" newYear ∧
      ¬ IsSingleEntry flat "custom.days[0]" newYear := by
  have hdoc : twoDays.isDocument = true := by decide
  have hdate : newYear.isJavaDate = true := by decide
  have hleaves : leaves twoDays = ⟨[.str "custom", .str "start"], stamp newYear, "._JavaDate"⟩ ::
      (leaves newYear).map (.under [.str "custom", .str "days", .int 0]) := rfl
  have hstart : IsApart twoDays [.str "custom", .str "start"] := by
    rw [IsApart, hleaves]
    refine forall_mem_cons.mpr ⟨fun h => absurd prefix_rfl h, ?_⟩
    rintro l hl -
    revert l
    decide
  have hdays : IsApart twoDays [.str "custom", .str "days", .int 0] := by
    rw [IsApart, hleaves]
    refine forall_mem_cons.mpr ⟨fun _ => by decide, fun l hl h => ?_⟩
    obtain ⟨l, -, rfl⟩ := mem_map.mp hl
    exact absurd (prefix_append ..) h
  refine ⟨hdoc, hdate, _, rfl, ?_, fun h => ?_⟩
  · exact (date_is_single_iff twoDays newYear [.str "custom", .str "start"] _ hdoc rfl
      (.field rfl (.field rfl (.here _))) (by simp) hdate hstart).mpr ⟨[.str "custom"], "start", rfl⟩
  · obtain ⟨front, key, hplace⟩ := (date_is_single_iff twoDays newYear [.str "custom", .str "days", .int 0] _ hdoc rfl
      (.field rfl (.field rfl (.item rfl (.here _)))) (by simp) hdate hdays).mp h
    have hlast := congrArg getLast? hplace
    rw [getLast?_concat] at hlast
    cases hlast

/-- An item that stands for a point in time gives entries for all that it holds. -/
theorem date_item_spread : flatten (.object [("a", .arr [newYear])]) = .ok [("a[0].$[0]", .str "ts"),
    ("a[0].$[1]", .int 192), ("a[0].$[2]", .int 0), ("a[0].$ts", .int 1704067200000)] :=
  rfl

end View

end ViewLint
