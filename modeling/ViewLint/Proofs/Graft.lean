import ViewLint.Proofs.Steps

/-!
# Values exchanged in a document

* `Json.everyObject`: a test that all objects of a document pass.
* `Json.graft`: a document with other values at some places.
* **`Json.put_graft`**: setting one more value. `Json.put_graft_below`: nothing can be set below a text
  that has been set before.
-/

namespace ViewLint

open List Json Fields

theorem Key.eq_name_of_beq {k : Key} {s : Text} (h : (k == .name s) = true) : k = .name s := by
  cases k with
  | name t => rw [name_beq_name, decide_eq_true_iff] at h; rw [h]
  | null | bool _ | int _ | float _ => exact absurd h (by simp [BEq.beq, Key.same, Key.number?])

namespace Json

variable {f : Key × Json} {new step u v w : Json} {path place : Path} {fields : List (Key × Json)} {items : List Json}

/-! ## Places -/

/-- What stands at a place of a document. -/
inductive At : Json → Path → Json → Prop where
  | here (v : Json) : At v [] v
  | field {kind : ObjectKind} {fields : List (Key × Json)} {key : Text} {w u : Json} {place : Path} :
      Fields.get? fields (.name key) = some w → At w place u → At (.obj kind fields) (.str key :: place) u
  | item {items : List Json} {i : Nat} {w u : Json} {place : Path} :
      items[i]? = some w → At w place u → At (.arr items) (.int i :: place) u

theorem at_nil_iff : v.At [] w ↔ v = w :=
  ⟨fun h => by cases h; rfl, fun h => h ▸ .here v⟩

theorem at_cons_iff : v.At (step :: place) u ↔ (∃ kind fields key w, v = .obj kind fields ∧ step = .str key ∧
        Fields.get? fields (.name key) = some w ∧ w.At place u) ∨
      ∃ items, ∃ i : Nat, ∃ w, v = .arr items ∧ step = .int i ∧ items[i]? = some w ∧ w.At place u := by
  constructor
  · intro h
    generalize hplace : step :: place = whole at h
    cases h with
    | here => cases hplace
    | field hget hat => cases hplace; exact .inl ⟨_, _, _, _, rfl, rfl, hget, hat⟩
    | item hget hat => cases hplace; exact .inr ⟨_, _, _, rfl, rfl, hget, hat⟩
  · rintro (⟨kind, fields, key, w, rfl, rfl, hget, hat⟩ | ⟨items, i, w, rfl, rfl, hget, hat⟩)
    · exact .field hget hat
    · exact .item hget hat

theorem at_append_iff {p q : Path} : v.At (p ++ q) u ↔ ∃ w, v.At p w ∧ w.At q u := by
  induction p generalizing v with
  | nil => simp [at_nil_iff]
  | cons step p ih =>
    simp only [cons_append, at_cons_iff, ih]
    constructor
    · rintro (⟨kind, fields, key, w, rfl, rfl, hget, x, hx, hu⟩ | ⟨items, i, w, rfl, rfl, hget, x, hx, hu⟩)
      · exact ⟨x, .inl ⟨_, _, _, _, rfl, rfl, hget, hx⟩, hu⟩
      · exact ⟨x, .inr ⟨_, _, _, rfl, rfl, hget, hx⟩, hu⟩
    · rintro ⟨x, ⟨kind, fields, key, w, rfl, rfl, hget, hx⟩ | ⟨items, i, w, rfl, rfl, hget, hx⟩, hu⟩
      · exact .inl ⟨_, _, _, _, rfl, rfl, hget, x, hx, hu⟩
      · exact .inr ⟨_, _, _, rfl, rfl, hget, x, hx, hu⟩

theorem At.append {p q : Path} (hp : v.At p w) (hq : w.At q u) : v.At (p ++ q) u :=
  at_append_iff.mpr ⟨w, hp, hq⟩

theorem At.unique (hw : v.At place w) (hu : v.At place u) : w = u := by
  induction hw with
  | here v => exact at_nil_iff.mp hu
  | field hget _ ih =>
    cases hu with
    | field hget' hat =>
      cases hget.symm.trans hget'
      exact ih hat
  | item hget _ ih =>
    obtain ⟨_, _, _, _, hv, _⟩ | ⟨_, j, _, hv, hstep, hget', hat⟩ := at_cons_iff.mp hu
    · cases hv
    · cases hv
      obtain rfl : _ = j := Int.ofNat.inj (Json.int.inj hstep)
      cases hget.symm.trans hget'
      exact ih hat

theorem at_cons {place : Path} (h : v.At (step :: place) u) : ∃ w, v.At [step] w ∧ w.At place u :=
  (at_append_iff (p := [step])).mp h

theorem At.leads (h : v.At place w) : v.Leads place w := by
  induction h with
  | here v => exact .nil v
  | field hget _ ih => exact (leads_field _ hget).append ih
  | item hget _ ih => exact (leads_item _ hget).append ih

theorem At.part (h : v.At [step] w) (path : Path) : part path v step = .ok w := (bind_pure _).symm.trans (h.leads path)

theorem At.getAt (h : v.At place w) : v.getAt place = .ok w := h.leads.getAt

/-! ## Documents -/

theorem isDocument_of_get? {key : Key}
    (h : isDocumentFields fields = true) (hget : Fields.get? fields key = some w) : w.isDocument = true := by
  obtain ⟨f, hfind, rfl⟩ := Option.map_eq_some_iff.mp hget
  obtain ⟨front, rest, rfl⟩ := append_of_mem (mem_of_find?_eq_some hfind)
  exact isDocument_of_mem_fields h

theorem isDocumentItems_eq_true_iff : isDocumentItems items = true ↔ ∀ x ∈ items, x.isDocument = true := by
  induction items with
  | nil => simp [isDocumentItems]
  | cons x items ih => rw [isDocumentItems, Bool.and_eq_true, ih, forall_mem_cons]

theorem isDocument_of_getElem? {i : Nat} (h : isDocumentItems items = true)
    (hget : items[i]? = some w) : w.isDocument = true :=
  isDocumentItems_eq_true_iff.mp h w (mem_of_getElem? hget)

theorem exists_name_of_mem (h : isDocumentFields fields = true) (hf : f ∈ fields) : ∃ key, f.1 = .name key := by
  induction fields with
  | nil => cases hf
  | cons g fields ih =>
    obtain ⟨key, v, rfl, -, -, h⟩ := of_isDocumentFields_cons h
    obtain rfl | hf := mem_cons.mp hf
    · exact ⟨key, rfl⟩
    · exact ih h hf

theorem get?_of_mem (h : isDocumentFields fields = true) (hf : f ∈ fields) : Fields.get? fields f.1 = some f.2 := by
  obtain ⟨front, rest, rfl⟩ := append_of_mem hf
  exact get?_of_isDocumentFields h

theorem exists_get?_of_mem (h : isDocumentFields fields = true) (hf : f ∈ fields) :
    ∃ key w, f = (.name key, w) ∧ Fields.get? fields (.name key) = some w := by
  obtain ⟨key, hkey⟩ := exists_name_of_mem h hf
  exact ⟨key, f.2, Prod.ext hkey rfl, hkey ▸ get?_of_mem h hf⟩

theorem isDocument_of_at (h : v.isDocument = true) (hat : v.At place w) : w.isDocument = true := by
  induction hat with
  | here => exact h
  | field hget _ ih => exact ih (isDocument_of_get? h hget)
  | item hget _ ih => exact ih (isDocument_of_getElem? h hget)

/-! ## Tests of all objects -/

mutual

def everyObject (test : List (Key × Json) → Bool) : Json → Bool
  | .arr items => everyObjectItems test items
  | .obj _ fields => test fields && everyObjectFields test fields
  | _ => true

def everyObjectItems (test : List (Key × Json) → Bool) : List Json → Bool
  | [] => true
  | x :: rest => everyObject test x && everyObjectItems test rest

def everyObjectFields (test : List (Key × Json) → Bool) : List (Key × Json) → Bool
  | [] => true
  | (_, v) :: rest => everyObject test v && everyObjectFields test rest

end

variable {test : List (Key × Json) → Bool}

theorem everyObjectItems_eq_true_iff : everyObjectItems test items = true ↔ ∀ x ∈ items, everyObject test x = true := by
  induction items with
  | nil => simp [everyObjectItems]
  | cons x items ih => rw [everyObjectItems, Bool.and_eq_true, ih, forall_mem_cons]

theorem everyObjectFields_eq_true_iff :
    everyObjectFields test fields = true ↔ ∀ f ∈ fields, everyObject test f.2 = true := by
  induction fields with
  | nil => simp [everyObjectFields]
  | cons f fields ih => rw [everyObjectFields, Bool.and_eq_true, ih, forall_mem_cons]

theorem At.of_everyObject {kind : ObjectKind}
    (h : v.everyObject test = true) (hat : v.At place (.obj kind fields)) : test fields = true := by
  generalize hw : obj kind fields = w at hat
  induction hat with
  | here v =>
    subst hw
    rw [everyObject, Bool.and_eq_true] at h
    exact h.1
  | field hget _ ih =>
    rw [everyObject, Bool.and_eq_true, everyObjectFields_eq_true_iff] at h
    obtain ⟨f, hfind, rfl⟩ := Option.map_eq_some_iff.mp hget
    exact ih (h.2 f (mem_of_find?_eq_some hfind)) hw
  | item hget _ ih =>
    rw [everyObject, everyObjectItems_eq_true_iff] at h
    exact ih (h _ (mem_of_getElem? hget)) hw

/-- What holds of single values and passes from parts to the whole holds of all values. -/
theorem parts_induction {P : Json → Prop} (single : ∀ v : Json, v.isContainer = false → P v)
    (arr : ∀ items : List Json, (∀ x ∈ items, P x) → P (.arr items))
    (obj : ∀ (kind : ObjectKind) (fields : List (Key × Json)), (∀ f ∈ fields, P f.2) → P (.obj kind fields)) :
    ∀ v : Json, P v := by
  refine @Json.rec P (fun items => ∀ x ∈ items, P x) (fun fields => ∀ f ∈ fields, P f.2) (P ·.2) ?_ ?_ ?_ ?_ ?_ arr obj
    (forall_mem_nil _) (fun _ _ hx hxs => forall_mem_cons.mpr ⟨hx, hxs⟩) (forall_mem_nil _)
    (fun _ _ hf hfs => forall_mem_cons.mpr ⟨hf, hfs⟩) fun _ _ h => h
  all_goals intros; exact single _ rfl

/-- **All objects pass a test if each one that stands at a place does.** -/
theorem everyObject_of_at (hdoc : v.isDocument = true)
    (h : ∀ place kind fields, v.At place (.obj kind fields) → test fields = true) : v.everyObject test = true := by
  induction v using parts_induction with
  | single v hv => cases v <;> first | rfl | cases hv
  | arr items ih =>
    rw [everyObject, everyObjectItems_eq_true_iff]
    intro x hx
    obtain ⟨i, hi⟩ := getElem?_of_mem hx
    exact ih x hx (isDocument_of_getElem? hdoc hi) fun place kind fields hat => h _ _ _ (.item hi hat)
  | obj kind fields ih =>
    rw [everyObject, Bool.and_eq_true, everyObjectFields_eq_true_iff]
    refine ⟨h [] kind fields (.here _), fun f hf => ?_⟩
    obtain ⟨key, w, rfl, hget⟩ := exists_get?_of_mem hdoc hf
    exact ih _ hf (isDocument_of_get? hdoc hget) fun place kind fields hat => h _ _ _ (.field hget hat)

/-! ## The exchange -/

mutual

/-- A value with others at some places. What stands below such a place is gone. -/
def graft (σ : Path → Option Json) : Json → Json
  | .arr items => (σ []).getD (.arr (graftItems σ 0 items))
  | .obj kind fields => (σ []).getD (.obj kind (graftFields σ fields))
  | v => (σ []).getD v

/-- Items, counted from a position, with other values at some places. -/
def graftItems (σ : Path → Option Json) : Nat → List Json → List Json
  | _, [] => []
  | i, x :: rest => graft (fun p => σ (.int i :: p)) x :: graftItems σ (i + 1) rest

def graftFields (σ : Path → Option Json) : List (Key × Json) → List (Key × Json)
  | [] => []
  | (k, v) :: rest => (k, graft (fun p => σ (k.toJson :: p)) v) :: graftFields σ rest

end

variable {σ τ : Path → Option Json}

theorem graft_of_some (h : σ [] = some new) (v : Json) : v.graft σ = new := by
  cases v <;> simp [graft, h]

theorem graft_arr (h : σ [] = none) (items : List Json) : (arr items).graft σ = .arr (graftItems σ 0 items) := by
  rw [graft, h]
  rfl

theorem graft_obj (h : σ [] = none) (kind : ObjectKind) (fields : List (Key × Json)) :
    (obj kind fields).graft σ = .obj kind (graftFields σ fields) := by
  rw [graft, h]
  rfl

theorem graft_single (h : σ [] = none) (hv : v.isContainer = false) : v.graft σ = v := by
  cases v with
  | arr _ | obj _ _ => cases hv
  | _ => simp [graft, h]

theorem getElem?_graftItems (i : Nat) (items : List Json) (j : Nat) :
    (graftItems σ i items)[j]? = items[j]?.map (graft fun p => σ (.int (i + j : Nat) :: p)) := by
  induction items generalizing i j with
  | nil => rfl
  | cons x items ih =>
    rw [graftItems]
    cases j with
    | zero => rfl
    | succ j => rw [getElem?_cons_succ, getElem?_cons_succ, ih, Nat.add_right_comm, Nat.add_assoc]

theorem graftFields_eq_map (fields : List (Key × Json)) :
    graftFields σ fields = fields.map fun f => (f.1, f.2.graft fun p => σ (f.1.toJson :: p)) := by
  induction fields with
  | nil => rfl
  | cons f fields ih => rw [graftFields, ih, map_cons]

theorem get?_graftFields (fields : List (Key × Json)) (key : Text) : Fields.get? (graftFields σ fields) (.name key) =
      (Fields.get? fields (.name key)).map (graft fun p => σ (.str key :: p)) := by
  induction fields with
  | nil => rfl
  | cons f fields ih =>
    obtain ⟨k, v⟩ := f
    rw [graftFields, Fields.get?_cons, Fields.get?_cons, ih]
    split
    · rename_i hk
      rw [Key.eq_name_of_beq hk]
      rfl
    · rfl

theorem graft_self (hdoc : v.isDocument = true) (h : ∀ q x u, σ q = some x → v.At q u → x = u) : v.graft σ = v := by
  induction v using parts_induction generalizing σ with
  | single v hv =>
    cases hnil : σ [] with
    | some x => exact (graft_of_some hnil v).trans (h [] x v hnil (.here v))
    | none => exact graft_single hnil hv
  | arr items ih =>
    cases hnil : σ [] with
    | some x => exact (graft_of_some hnil _).trans (h [] x _ hnil (.here _))
    | none =>
      rw [graft_arr hnil]
      refine congrArg arr (ext_getElem? fun i => ?_)
      rw [getElem?_graftItems, Nat.zero_add]
      cases hx : items[i]? with
      | none => rfl
      | some x =>
        exact congrArg some (ih x (mem_of_getElem? hx) (isDocument_of_getElem? hdoc hx)
          fun q y u hy hu => h _ y u hy (.item hx hu))
  | obj kind fields ih =>
    cases hnil : σ [] with
    | some x => exact (graft_of_some hnil _).trans (h [] x _ hnil (.here _))
    | none =>
      rw [graft_obj hnil, graftFields_eq_map]
      refine congrArg (obj kind) ((map_congr_left fun f hf => congrArg (Prod.mk f.1) ?_).trans (map_id' fields))
      obtain ⟨key, w, rfl, hget⟩ := exists_get?_of_mem hdoc hf
      exact ih _ hf (isDocument_of_get? hdoc hget) fun q y u hy hu => h _ y u hy (.field hget hu)

/-! ## Setting one more value -/

theorem set_graftItems {i : Nat} (hget : items[i]? = some w)
    (hother : ∀ (j : Nat) q, j ≠ i → τ (.int j :: q) = σ (.int j :: q)) :
    (graftItems σ 0 items).set i (w.graft fun p => τ (.int i :: p)) = graftItems τ 0 items := by
  refine ext_getElem? fun j => ?_
  have hlength : (graftItems σ 0 items)[i]?.isSome := by rw [getElem?_graftItems, hget]; rfl
  rw [getElem?_set, getElem?_graftItems, getElem?_graftItems, Nat.zero_add]
  by_cases hij : i = j
  · subst hij
    rw [if_pos rfl, if_pos (by simpa using hlength), hget]
    rfl
  · rw [if_neg hij]
    refine congrArg (fun f => Option.map f items[j]?) (congrArg graft ?_)
    exact funext fun q => (hother j q (Ne.symm hij)).symm

theorem graftFields_congr (h : ∀ f ∈ fields, ∀ q, τ (f.1.toJson :: q) = σ (f.1.toJson :: q)) :
    graftFields τ fields = graftFields σ fields := by
  rw [graftFields_eq_map, graftFields_eq_map]
  refine map_congr_left fun f hf => ?_
  rw [funext (h f hf)]

theorem insert_graftFields {key : Text}
    (hdoc : isDocumentFields fields = true) (hget : Fields.get? fields (.name key) = some w)
    (hother : ∀ k q, k ≠ key → τ (.str k :: q) = σ (.str k :: q)) :
    insert (graftFields σ fields) (.name key) (w.graft fun p => τ (.str key :: p)) = graftFields τ fields := by
  induction fields with
  | nil => cases hget
  | cons f fields ih =>
    obtain ⟨name, v, rfl, hfresh, -, hrest⟩ := of_isDocumentFields_cons hdoc
    rw [get?_cons] at hget
    rw [graftFields, graftFields, Fields.insert]
    by_cases hname : name = key
    · subst hname
      rw [Key.name_beq_self, if_pos rfl] at hget ⊢
      cases hget
      refine congrArg _ (graftFields_congr fun g hg q => ?_).symm
      obtain ⟨other, u, rfl, hfound⟩ := exists_get?_of_mem hrest hg
      refine hother other q ?_
      rintro rfl
      cases hfresh.symm.trans hfound
    · have hbeq : ((Key.name name : Key) == .name key) = false := by rw [Key.name_beq_name, decide_eq_false hname]
      rw [hbeq, if_neg Bool.false_ne_true] at hget ⊢
      rw [ih hrest hget]
      refine congrArg (· :: _) (congrArg (Prod.mk _) (congrArg (fun σ => graft σ v) ?_))
      exact funext fun q => (hother name q hname).symm

/-- The part at a step, where nothing is exchanged for the whole. -/
theorem At.graft_step (h : v.At [step] w) (hnil : σ [] = none) :
    (v.graft σ).At [step] (w.graft fun p => σ (step :: p)) := by
  cases h with
  | field hget hat =>
    cases hat
    rw [graft_obj hnil]
    exact .field (by rw [get?_graftFields, hget]; rfl) (.here _)
  | item hget hat =>
    cases hat
    rw [graft_arr hnil]
    exact .item (by rw [getElem?_graftItems, hget, Nat.zero_add]; rfl) (.here _)

theorem putPart_graft (h : v.At [step] w) (hdoc : v.isDocument = true) (hσ : σ [] = none) (hτ : τ [] = none)
    (hother : ∀ s q, s ≠ step → τ (s :: q) = σ (s :: q)) :
    putPart path (v.graft σ) step (w.graft fun p => τ (step :: p)) = .ok (v.graft τ) := by
  cases h with
  | field hget hat =>
    cases hat
    rw [graft_obj hσ, graft_obj hτ, ← insert_graftFields hdoc hget fun k q hk => hother _ q (by simpa using hk)]
    rfl
  | @item items i _ _ _ hget hat =>
    cases hat
    have hgraft : (graftItems σ 0 items)[i]? = some _ := (getElem?_graftItems 0 items i).trans (congrArg _ hget)
    rw [graft_arr hσ, graft_arr hτ, putPart, itemPosition_of_getElem? hgraft,
      ← set_graftItems hget fun j q hj => hother _ q fun h => hj (Int.ofNat.inj (int.inj h))]
    rfl

/-- No value is exchanged above a place. -/
def ClearAbove (σ : Path → Option Json) (place : Path) : Prop := ∀ q, q <+: place → q ≠ place → σ q = none

theorem ClearAbove.nil (h : ClearAbove σ (step :: place)) : σ [] = none :=
  h [] nil_prefix (by simp)

theorem ClearAbove.cons (h : ClearAbove σ (step :: place)) : ClearAbove (fun p => σ (step :: p)) place :=
  fun q hq hne => h (step :: q) ((prefix_cons_inj step).mpr hq) (by simpa using hne)

theorem put_graft (hat : v.At place w) (hdoc : v.isDocument = true)
    (hne : place ≠ []) (hclear : ClearAbove σ place) (hnew : τ place = some new)
    (hother : ∀ q, q ≠ place → τ q = σ q) : put path new (v.graft σ) place = .ok (v.graft τ) := by
  induction place generalizing v σ τ with
  | nil => exact absurd rfl hne
  | cons step rest ih =>
    obtain ⟨u, hstep, hat⟩ := at_cons hat
    have hτ : τ [] = none := (hother [] (by simp)).trans hclear.nil
    have hput : putPart path _ step _ = _ :=
      putPart_graft hstep hdoc hclear.nil hτ fun s q hs => hother _ fun h => hs (cons.inj h).1
    cases rest with
    | nil => rwa [graft_of_some (σ := fun p => τ (step :: p)) hnew] at hput
    | cons next rest =>
      rw [put_cons (cons_ne_nil _ _) ((hstep.graft_step hclear.nil).part path),
        ih hat (isDocument_of_at hdoc hstep) (cons_ne_nil _ _) hclear.cons hnew fun q hq => hother _ (by simpa using hq)]
      exact hput

theorem put_single (hv : v.isContainer = false) (hne : place ≠ []) (new : Json) :
    ∃ k, put path new v place = .error (.missingKey k) := by
  obtain ⟨step, rest, rfl⟩ := exists_cons_of_ne_nil hne
  cases v with
  | arr _ | obj _ _ => cases hv
  | _ => cases rest <;> exact ⟨_, rfl⟩

theorem clearAbove_nil : ClearAbove σ [] := fun _ hq hne => absurd (prefix_nil.mp hq) hne

theorem clearAbove_cons_iff :
    ClearAbove σ (step :: place) ↔ σ [] = none ∧ ClearAbove (fun p => σ (step :: p)) place := by
  refine ⟨fun h => ⟨h.nil, h.cons⟩, ?_⟩
  rintro ⟨hnil, hcons⟩ q hq hne
  cases q with
  | nil => exact hnil
  | cons s q =>
    obtain ⟨rfl, hrest⟩ := cons_prefix_cons.mp hq
    exact hcons q hrest fun e => hne (e ▸ rfl)

/-- Nothing can be set below a single value that has been set before. -/
theorem put_graft_below (hat : v.At place w)
    (hσ : ∀ q x, σ q = some x → x.isContainer = false) (hclear : ¬ ClearAbove σ place) (new : Json) :
    ∃ k, put path new (v.graft σ) place = .error (.missingKey k) := by
  induction place generalizing v σ with
  | nil => exact absurd clearAbove_nil hclear
  | cons step rest ih =>
    obtain ⟨u, hstep, hat⟩ := at_cons hat
    cases hnil : σ [] with
    | some x =>
      rw [graft_of_some hnil]
      exact put_single (hσ [] x hnil) (cons_ne_nil _ _) new
    | none =>
      have hbelow : ¬ ClearAbove (fun p => σ (step :: p)) rest := fun h => hclear (clearAbove_cons_iff.mpr ⟨hnil, h⟩)
      have hrest : rest ≠ [] := fun e => hbelow (e ▸ clearAbove_nil)
      obtain ⟨k, hk⟩ := ih hat (fun q x => hσ (step :: q) x) hbelow
      refine ⟨k, ?_⟩
      rw [put_cons hrest ((hstep.graft_step hnil).part path), hk]
      rfl

/-! ## After the exchange -/

theorem at_graft (hat : v.At place w) (hclear : ClearAbove σ place) :
    (v.graft σ).At place (w.graft fun q => σ (place ++ q)) := by
  induction place generalizing v σ with
  | nil =>
    obtain rfl := at_nil_iff.mp hat
    exact .here _
  | cons step place ih =>
    obtain ⟨u, hstep, hat⟩ := at_cons hat
    exact (hstep.graft_step hclear.nil).append (ih hat hclear.cons)

theorem not_at_cons_of_single (hv : v.isContainer = false) : ¬ v.At (step :: place) u := by
  intro h
  cases h <;> cases hv

mutual

/-- A value with nothing in place of its single values. -/
def shape : Json → Json
  | .arr items => .arr (shapeItems items)
  | .obj kind fields => .obj kind (shapeFields fields)
  | _ => .null

def shapeItems : List Json → List Json
  | [] => []
  | x :: rest => shape x :: shapeItems rest

def shapeFields : List (Key × Json) → List (Key × Json)
  | [] => []
  | (k, v) :: rest => (k, shape v) :: shapeFields rest

end

theorem shapeItems_eq_map (items : List Json) : shapeItems items = items.map shape := by
  induction items with
  | nil => rfl
  | cons x items ih => rw [shapeItems, ih, map_cons]

theorem shapeFields_eq_map (fields : List (Key × Json)) :
    shapeFields fields = fields.map fun f => (f.1, f.2.shape) := by
  induction fields with
  | nil => rfl
  | cons f fields ih => rw [shapeFields, ih, map_cons]

theorem shape_of_single (hv : v.isContainer = false) : v.shape = .null := by
  cases v with
  | arr _ | obj _ _ => cases hv
  | _ => simp [shape]

/-- Exchanging single values for others keeps the shape. -/
theorem shape_graft (hdoc : v.isDocument = true) (hσ : ∀ q x, σ q = some x → x.isContainer = false)
    (hat : ∀ q x w, σ q = some x → v.At q w → w.isContainer = false) : (v.graft σ).shape = v.shape := by
  induction v using parts_induction generalizing σ with
  | single v hv =>
    cases hnil : σ [] with
    | some x => rw [graft_of_some hnil, shape_of_single (hσ [] x hnil), shape_of_single hv]
    | none => rw [graft_single hnil hv]
  | arr items ih =>
    have hnil : σ [] = none := Option.eq_none_iff_forall_ne_some.mpr fun x hx => nomatch hat [] x _ hx (.here _)
    rw [graft_arr hnil, shape, shape, shapeItems_eq_map, shapeItems_eq_map]
    refine congrArg arr (ext_getElem? fun i => ?_)
    rw [getElem?_map, getElem?_map, getElem?_graftItems, Option.map_map, Nat.zero_add]
    cases hx : items[i]? with
    | none => rfl
    | some x =>
      exact congrArg some (ih x (mem_of_getElem? hx) (isDocument_of_getElem? hdoc hx) (fun q y => hσ _ y)
        fun q y w hy hw => hat _ y w hy (.item hx hw))
  | obj kind fields ih =>
    have hnil : σ [] = none := Option.eq_none_iff_forall_ne_some.mpr fun x hx => nomatch hat [] x _ hx (.here _)
    rw [graft_obj hnil, shape, shape, shapeFields_eq_map, shapeFields_eq_map, graftFields_eq_map, map_map]
    refine congrArg (obj kind) (map_congr_left fun f hf => congrArg (Prod.mk f.1) ?_)
    obtain ⟨key, u, rfl, hget⟩ := exists_get?_of_mem hdoc hf
    exact ih _ hf (isDocument_of_get? hdoc hget) (fun q y => hσ _ y) fun q y w hy hw => hat _ y w hy (.field hget hw)

end Json

end ViewLint
