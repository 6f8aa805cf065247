import ViewLint.Proofs.Fields
import ViewLint.View.Path

/-!
# Steps into a document

* `Json.isDocument`: values as they are read from a text, where the keys of an object are names and
  no two of them are the same.
* `Json.Leads`: a path leads from one value to another.
-/

namespace ViewLint

open List Key

variable {place path rest : Path} {key : Key} {fields : List (Key × Json)} {i length : Nat} {v w step : Json}

namespace Key

@[simp] theorem key?_toJson (k : Key) : k.toJson.key? = some k := by cases k <;> rfl

theorem name_beq_name (a b : Text) : ((name a : Key) == .name b) = decide (a = b) := by
  change same _ _ = _
  simp [same, number?]

@[simp] theorem name_beq_self (a : Text) : ((name a : Key) == .name a) = true := by
  rw [name_beq_name, decide_eq_true rfl]

end Key

namespace Json

/-! ## Documents -/

mutual

/-- Whether the keys of every object are names, and differ from each other. -/
def isDocument : Json → Bool
  | .arr items => isDocumentItems items
  | .obj _ fields => isDocumentFields fields
  | _ => true

def isDocumentItems : List Json → Bool
  | [] => true
  | x :: rest => isDocument x && isDocumentItems rest

/-- Whether the keys of fields are names that differ from each other, over documents. -/
def isDocumentFields : List (Key × Json) → Bool
  | [] => true
  | (.name key, v) :: rest => !Fields.has rest (.name key) && isDocument v && isDocumentFields rest
  | _ => false

end

theorem of_isDocumentFields_cons {f : Key × Json} (h : isDocumentFields (f :: fields) = true) :
    ∃ key v, f = (.name key, v) ∧ Fields.get? fields (.name key) = none ∧ v.isDocument = true ∧ isDocumentFields fields = true := by
  obtain ⟨key, v⟩ := f
  cases key with
  | name key =>
    rw [isDocumentFields, Bool.and_eq_true, Bool.and_eq_true] at h
    exact ⟨key, v, rfl, by simpa [Fields.has] using h.1.1, h.1.2, h.2⟩
  | null | bool _ | int _ | float _ => simp [isDocumentFields] at h

/-- A field of a document is found under its own key. -/
theorem get?_of_isDocumentFields {front rest : List (Key × Json)}
    (h : isDocumentFields (front ++ (key, v) :: rest) = true) :
    Fields.get? (front ++ (key, v) :: rest) key = some v := by
  induction front with
  | nil =>
    obtain ⟨s, w, hf, -⟩ := of_isDocumentFields_cons h
    cases hf
    rw [nil_append, Fields.get?_cons, name_beq_self, if_pos rfl]
  | cons f front ih =>
    obtain ⟨s, w, rfl, hfresh, -, h⟩ := of_isDocumentFields_cons h
    have hfound := ih h
    have hne : ¬ ((name s : Key) == key) = true := by
      intro e
      cases key with
      | name t =>
        rw [name_beq_name, decide_eq_true_iff] at e
        subst e
        cases hfresh.symm.trans hfound
      | null | bool _ | int _ | float _ => exact absurd e (by simp [BEq.beq, Key.same, Key.number?])
    rw [cons_append, Fields.get?_cons, if_neg hne, hfound]

theorem isDocument_of_mem_fields {front rest : List (Key × Json)}
    (h : isDocumentFields (front ++ (key, v) :: rest) = true) : isDocument v = true := by
  induction front with
  | nil =>
    obtain ⟨s, w, hf, -, hw, -⟩ := of_isDocumentFields_cons h
    cases hf
    exact hw
  | cons f front ih =>
    obtain ⟨s, w, -, -, -, h⟩ := of_isDocumentFields_cons h
    exact ih h

/-! ## Paths that lead somewhere -/

/-- A path leads from a value to a part of it. -/
def Leads (v : Json) (place : Path) (w : Json) : Prop := ∀ path, follow path v place = .ok w

theorem Leads.nil (v : Json) : Leads v [] v := fun _ => rfl

theorem Leads.getAt (h : Leads v place w) : v.getAt place = .ok w := h place

theorem follow_append (path : Path) (v : Json) (p q : Path) :
    follow path v (p ++ q) = follow path v p >>= fun w => follow path w q := by
  induction p generalizing v with
  | nil => rfl
  | cons step p ih =>
    rw [cons_append, follow, follow]
    cases part path v step with
    | error e => rfl
    | ok w => exact ih w

theorem Leads.append {u : Json} {p q : Path} (hp : Leads v p w) (hq : Leads w q u) : Leads v (p ++ q) u := by
  intro path
  rw [follow_append, hp path]
  exact hq path

theorem itemPosition_of_getElem? {items : List Json} {x : Json} (h : items[i]? = some x) :
    itemPosition items.length (.int i) = .ok i := by
  have hi : i < items.length := (List.getElem?_eq_some_iff.mp h).1
  simp [itemPosition, int?, position?, hi]

theorem leads_item (items : List Json) {x : Json} (h : items[i]? = some x) : Leads (.arr items) [.int i] x := by
  intro path
  simp [follow, part, itemPosition_of_getElem? h, h, bind, Except.bind]

theorem leads_field (kind : ObjectKind)
    (h : Fields.get? fields key = some v) : Leads (.obj kind fields) [key.toJson] v := by
  intro path
  simp [follow, part, asKey, h, bind, Except.bind]

/-! ## Putting a value at the end of a path -/

theorem position?_lt {n : Int} (h : position? length n = some i) : i < length := by
  rw [position?] at h
  split at h
  · split at h <;> cases h
    omega
  · split at h <;> cases h
    omega

theorem itemPosition_lt (h : itemPosition length step = .ok i) : i < length := by
  rw [itemPosition] at h
  split at h
  · split at h
    · next hi => cases h; exact position?_lt hi
    · cases h
  · cases h

theorem putPart_of_part (h : part path v step = .ok w) (new : Json) :
    ∃ v', putPart path v step new = .ok v' ∧ Leads v' [step] new := by
  cases v with
  | obj kind fields =>
    obtain ⟨key, hkey, h⟩ := bind_eq_ok.mp h
    refine ⟨.obj kind (Fields.insert fields key new), by rw [putPart, hkey]; rfl, ?_⟩
    have hget : Fields.get? (Fields.insert fields key new) key = some new := by
      split at h
      · next hw => exact Fields.get?_insert_self hw new
      · cases h
    intro path'
    simp [follow, part, hkey, hget, bind, Except.bind]
  | arr items =>
    obtain ⟨i, hi, h⟩ := bind_eq_ok.mp h
    refine ⟨.arr (items.set i new), by rw [putPart, hi]; rfl, ?_⟩
    have hget : (items.set i new)[i]? = some new := List.getElem?_set_self (itemPosition_lt hi)
    intro path'
    simp [follow, part, List.length_set, hi, hget, bind, Except.bind]
  | _ => cases h

theorem put_cons {new : Json} (hrest : rest ≠ []) (hpart : part path v step = .ok w) :
    put path new v (step :: rest) = put path new w rest >>= putPart path v step := by
  obtain ⟨next, more, rfl⟩ := exists_cons_of_ne_nil hrest
  rw [put, hpart]
  · rfl
  · simp

theorem put_of_follow (h : follow path v place = .ok w) (hne : place ≠ [])
    (new : Json) : ∃ v', put path new v place = .ok v' ∧ Leads v' place new := by
  induction place generalizing v with
  | nil => exact absurd rfl hne
  | cons step rest ih =>
    rw [follow, bind_eq_ok] at h
    obtain ⟨u, hu, h⟩ := h
    cases rest with
    | nil =>
      obtain ⟨v', hput, hleads⟩ := putPart_of_part hu new
      exact ⟨v', hput, hleads⟩
    | cons next rest =>
      obtain ⟨u', hput, hleads⟩ := ih h (by simp)
      obtain ⟨v', hput', hleads'⟩ := putPart_of_part hu u'
      refine ⟨v', ?_, hleads'.append hleads⟩
      rw [put_cons (cons_ne_nil next rest) hu, hput]
      exact hput'

end Json

end ViewLint
