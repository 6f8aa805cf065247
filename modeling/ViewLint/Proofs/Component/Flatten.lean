import ViewLint.Proofs.Component.Tree
import ViewLint.Proofs.NamePlaces

/-!
# The flattened form of a tree of components

A view is flattened from the root down, in document order, each component with a name adding it to the
path. What a member of a component gives does not depend on where the component stands, up to its path.

* `Component.Member.leaves`: what a member gives, with paths that start at its component.
* `Component.listing`: the entries of a tree, in document order.
* **`Component.flatten_view_iff`**: the flattened form of a view lists what its members give.
-/

namespace ViewLint

open Locator Json Fields List

namespace View

variable {fields : List (Key × Json)} {here path a : Text} {es : Flat} {v : Json} {e : Text × Json}

/-! ## Entries below a longer path -/

/-- Entries with a text put before their paths. -/
def shift (a : Text) (es : Flat) : Flat := es.map fun e => (a ++ e.1, e.2)

theorem child_append (h : path ≠ []) (a key : Text) : child (a ++ path) key = a ++ child path key := by
  rw [child_of_ne_nil h, child_of_ne_nil (by simp [h])]
  simp

theorem child_path_ne_nil (h : path ≠ []) (key : Text) : child path key ≠ [] := by
  rw [child_of_ne_nil h]
  simp [h]

theorem item_append (a path : Text) (i : Nat) : item (a ++ path) i = a ++ item path i := by
  simp [item]

theorem item_ne_nil (path : Text) (i : Nat) : item path i ≠ [] := by simp [item, Text.ofString]

theorem entriesFields_eq_ok_iff {f : Key × Json} :
    entriesFields path (f :: fields) = .ok es ↔ ∃ own rest, partEntries (child path f.1.display) f.2 = .ok own ∧
      entriesFields path fields = .ok rest ∧ es = own ++ rest := by
  rw [entriesFields_eq, row_cons, bind_append_eq_ok, entriesFields_eq]

theorem entriesFields_append_eq_ok_iff {more : List (Key × Json)} :
    entriesFields path (fields ++ more) = .ok es ↔ ∃ own rest, entriesFields path fields = .ok own ∧
      entriesFields path more = .ok rest ∧ es = own ++ rest := by
  rw [entriesFields_eq, row_append, bind_append_eq_ok, entriesFields_eq, entriesFields_eq]

theorem row_shift {α : Type} {f g : α → Except Fault Flat} {xs : List α} (h : ∀ x ∈ xs, g x = (f x).map (shift a)) :
    row g xs = (row f xs).map (shift a) := by
  induction xs with
  | nil => rfl
  | cons x xs ih =>
    obtain ⟨hx, hxs⟩ := forall_mem_cons.mp h
    rw [row_cons, row_cons, hx, ih hxs]
    cases f x with
    | error _ => rfl
    | ok own =>
      cases row f xs with
      | error _ => rfl
      | ok rest => exact congrArg Except.ok map_append.symm

theorem partEntries_append_of (h : entries (a ++ here) v = (entries here v).map (shift a)) :
    partEntries (a ++ here) v = (partEntries here v).map (shift a) := by
  rw [partEntries, partEntries]
  split
  · simp [Except.map, shift]
  · split
    · exact h
    · rfl

theorem entries_append (a : Text) (h : here ≠ []) (v : Json) :
    entries (a ++ here) v = (entries here v).map (shift a) := by
  induction v using parts_induction generalizing here with
  | single v hv =>
    cases v with
    | arr _ | obj _ _ => cases hv
    | _ => rfl
  | arr items ih =>
    rw [entries, entries, entriesItems_eq, entriesItems_eq]
    refine row_shift fun x hx => ?_
    rw [itemEntries, itemEntries, item_append]
    split
    · exact ih x.1 (mem_of_getElem? (mem_zipIdx_iff_getElem?.mp hx)) (item_ne_nil here x.2)
    · rfl
  | obj kind fields ih =>
    have hrow {here : Text} (h : here ≠ []) :
        entriesFields (a ++ here) fields = (entriesFields here fields).map (shift a) := by
      rw [entriesFields_eq, entriesFields_eq]
      refine row_shift fun f hf => ?_
      rw [child_append h]
      exact partEntries_append_of (ih f hf (child_path_ne_nil h _))
    rw [entries, entries, inside, inside]
    cases componentName? fields with
    | error _ => rfl
    | ok name? =>
      cases name? with
      | none => exact hrow h
      | some name =>
        change entriesFields (child (a ++ here) name.display) fields = _
        rw [child_append h]
        exact hrow (child_path_ne_nil h _)

/-! ## What entries look like -/

theorem exists_of_mem_entriesItems {i : Nat} {items : List Json}
    (h : entriesItems path i items = .ok es) (he : e ∈ es) :
    ∃ x ∈ items, ∃ j own, itemEntries path j x = .ok own ∧ e ∈ own := by
  obtain ⟨x, hx, own, hown, he⟩ := (mem_row_iff (entriesItems_eq path i items ▸ h)).mp he
  exact ⟨x.1, fst_mem_of_mem_zipIdx hx, x.2, own, hown, he⟩

theorem stamp_cases (h : v.isJavaDate = true) :
    (v.get? "$ts").getD .null = .null ∨ ((v.get? "$ts").getD .null).isNumber = true := by
  cases v with
  | obj kind fields =>
    obtain ⟨tag, precision, nanos, stamp, -, -, hstamp, hfields⟩ := of_isJavaDate h
    cases hget : (obj kind fields).get? "$ts" with
    | none => exact .inl rfl
    | some w =>
      obtain hw | hw := hfields _ (mem_of_get? hget) <;> cases hw
      exact .inr hstamp
  | _ => cases h

theorem isContainer_stamp (h : v.isJavaDate = true) : ((v.get? "$ts").getD .null).isContainer = false := by
  obtain hnull | hnumber := stamp_cases h
  · rw [hnull]
    rfl
  · exact isContainer_of_isNumber hnumber

section Induction

variable {v : Json} {es : Flat} {e : Text × Json} {P : Text → Text × Json → Prop}
  (leaf : ∀ here v, v.isContainer = false → P here (here, v))
  (date : ∀ here v, v.isContainer = false → P here (here ++ "._JavaDate", v))
  (field : ∀ here key e, P (child here key) e → P here e) (item : ∀ here i e, P (item here i) e → P here e)

include leaf date

theorem partEntries_of_entries (hin : ∀ {here es}, entries here v = .ok es → e ∈ es → P here e)
    (h : partEntries here v = .ok es) (he : e ∈ es) : P here e := by
  rw [partEntries] at h
  split at h
  · next hdate =>
    cases h
    rw [mem_singleton.mp he]
    exact date here _ (isContainer_stamp hdate)
  · split at h
    · exact hin h he
    · next hsingle =>
      cases h
      rw [mem_singleton.mp he]
      exact leaf here v (by simpa using hsingle)

include field item

/-- A property holds of every entry if single values have it, and if it passes from the parts of a value to
the value. -/
theorem entries_induction (h : entries here v = .ok es) (he : e ∈ es) : P here e := by
  induction v using parts_induction generalizing here es with
  | single v hv =>
    cases v with
    | arr _ | obj _ _ => cases hv
    | _ => cases h; cases he
  | arr items ih =>
    rw [entries] at h
    obtain ⟨x, hx, j, own, hown, he⟩ := exists_of_mem_entriesItems h he
    rw [itemEntries] at hown
    refine item here j e ?_
    split at hown
    · exact ih x hx hown he
    · next hsingle =>
      cases hown
      rw [mem_singleton.mp he]
      exact leaf _ x (by simpa using hsingle)
  | obj kind fields ih =>
    have hfields {here : Text} (h : entriesFields here fields = .ok es) : P here e := by
      obtain ⟨f, hf, own, hown, he⟩ := (mem_row_iff (entriesFields_eq here fields ▸ h)).mp he
      exact field here f.1.display e (partEntries_of_entries leaf date (ih f hf) hown he)
    rw [entries, inside] at h
    cases hname : componentName? fields with
    | error _ => rw [hname] at h; cases h
    | ok name? =>
      rw [hname] at h
      cases name? with
      | none => exact hfields h
      | some name => exact field here name.display e (hfields h)

end Induction

theorem prefix_child (here key : Text) : here <+: child here key := by
  by_cases hnil : here = []
  · exact hnil ▸ nil_prefix
  · rw [child_of_ne_nil hnil, append_assoc]
    exact prefix_append here _

theorem prefix_item (here : Text) (i : Nat) : here <+: item here i := by
  rw [item, append_assoc, append_assoc]
  exact prefix_append here _

theorem prefix_of_mem_entries (h : entries here v = .ok es) (he : e ∈ es) : here <+: e.1 :=
  entries_induction (P := fun here e => here <+: e.1) (fun here _ _ => prefix_refl here)
    (fun here _ _ => prefix_append here _) (fun here key _ hkey => (prefix_child here key).trans hkey)
    (fun here i _ hitem => (prefix_item here i).trans hitem) h he

/-- The path of an entry starts with the path of the value. -/
theorem prefix_of_mem_partEntries (h : partEntries here v = .ok es) (he : e ∈ es) : here <+: e.1 :=
  partEntries_of_entries (P := fun here e => here <+: e.1) (fun here _ _ => prefix_refl here)
    (fun here _ _ => prefix_append here _) (fun hin hmem => prefix_of_mem_entries hin hmem) h he

theorem isContainer_of_mem_partEntries (h : partEntries here v = .ok es) (he : e ∈ es) : e.2.isContainer = false :=
  partEntries_of_entries (P := fun _ e => e.2.isContainer = false) (fun _ _ hv => hv) (fun _ _ hv => hv)
    (entries_induction (P := fun _ e => e.2.isContainer = false) (fun _ _ hv => hv) (fun _ _ hv => hv)
      (fun _ _ _ h => h) fun _ _ _ h => h) h he

/-! ## What fields give -/

section Fields

variable {f : Key × Json} {es : Flat} {e : Text × Json}

/-- What a field gives, with paths that start at its object; nothing if it cannot be flattened. -/
def fieldLeaves (f : Key × Json) : Flat :=
  match partEntries ("." ++ f.1.display) f.2 with
  | .ok es => es
  | .error _ => []

/-- A field that can be flattened. -/
def IsReadableField (f : Key × Json) : Prop := ∃ es, partEntries ("." ++ f.1.display) f.2 = .ok es

theorem fieldLeaves_of_ok (h : partEntries ("." ++ f.1.display) f.2 = .ok es) : fieldLeaves f = es := by
  rw [fieldLeaves, h]

theorem ok_of_mem_fieldLeaves (he : e ∈ fieldLeaves f) :
    partEntries ("." ++ f.1.display) f.2 = .ok (fieldLeaves f) := by
  rw [fieldLeaves] at he ⊢
  cases h : partEntries ("." ++ f.1.display) f.2 with
  | ok es => rfl
  | error _ => rw [h] at he; cases he

theorem dot_append_ne_nil (t : Text) : ("." ++ t : Text) ≠ [] := by simp [Text.ofString]

/-- **The entries of fields** below a path. -/
theorem entriesFields_iff (h : path ≠ []) :
    entriesFields path fields = .ok es ↔
      (∀ f ∈ fields, IsReadableField f) ∧ es = shift path (fields.flatMap fieldLeaves) := by
  have hfield (f : Key × Json) (own : Flat) : partEntries (child path f.1.display) f.2 = .ok own ↔
      IsReadableField f ∧ own = shift path (fieldLeaves f) := by
    rw [child_of_ne_nil h, append_assoc, partEntries_append_of (entries_append path (dot_append_ne_nil _) _),
      IsReadableField, fieldLeaves]
    cases partEntries ("." ++ f.1.display) f.2 <;> simp [Except.map, eq_comm]
  rw [entriesFields_eq, row_iff fun f _ => hfield f, shift, map_flatMap]
  rfl

end Fields

end View

namespace Component

open View

variable {base : Text} {es : Flat} {c : Component} (kind : ObjectKind)

/-! ## The members of a component -/

/-- What stands before the paths of a member. -/
def Member.head (m : Member) : Text := "." ++ m.key

/-- The entries of a member, with paths that start at its component. -/
def Member.entries (m : Member) : Except Fault Flat := partEntries m.head (m.toJson kind)

/-- What a member gives; nothing if it cannot be flattened. -/
def Member.leaves (m : Member) : Flat :=
  match m.entries kind with
  | .ok es => es
  | .error _ => []

/-- A component whose members can be flattened. -/
def Shape.IsReadable (s : Shape) : Prop := ∀ m ∈ s.members, ∃ es, m.entries kind = .ok es

theorem Member.leaves_name (n : Text) : (Member.name n).leaves kind = [((".meta.name" : Text), .str n)] :=
  rfl

theorem entriesFields_members_iff {path : Text} (h : path ≠ []) {ms : List Member} :
    entriesFields path (ms.map (Member.field kind)) = .ok es ↔
      (∀ m ∈ ms, ∃ own, m.entries kind = .ok own) ∧ es = shift path (ms.flatMap (Member.leaves kind)) := by
  rw [entriesFields_iff h, flatMap_map, forall_mem_map]
  rfl

/-! ## Names -/

theorem get?_meta (ms : List Member) : get? (ms.map (Member.field kind)) (.name "meta") =
      (ms.findSome? Member.name?).map fun n => .obj kind [(.name "name", .str n)] := by
  induction ms with
  | nil => rfl
  | cons m ms ih =>
    rw [map_cons, Member.field, get?_cons, ih, Key.name_beq_name]
    cases m with
    | name n => rfl
    | type _ | propConfig _ => rfl

theorem get?_fields_meta (s : Shape) (items : List Json) : get? (s.fields kind items) (.name "meta") =
      s.name?.map fun n => .obj kind [(.name "name", .str n)] := by
  have hrow : get? (if s.hasRow || !items.isEmpty then [(Key.name "children", arr items)] else [])
      (.name "meta") = none := by
    split <;> rfl
  rw [Shape.fields, get?_append, get?_append, hrow, get?_meta, get?_meta, Option.or_none,
    Shape.name?, Shape.members, findSome?_append, Option.map_or]

/-- What stands inside a component has its step on the path. -/
theorem inside_fields (h : base ≠ []) (s : Shape) (items : List Json) :
    inside base (s.fields kind items) = .ok (base ++ s.step) := by
  rw [inside, componentName?, get?_fields_meta, Shape.step]
  cases s.name? with
  | none => exact congrArg Except.ok (append_nil base).symm
  | some n =>
    cases n with
    | nil => exact congrArg Except.ok (append_nil base).symm
    | cons a n =>
      refine congrArg Except.ok ((child_of_ne_nil h _).trans ?_)
      rw [append_assoc]
      rfl

theorem isJavaDate_toJson (c : Component) : (c.toJson kind).isJavaDate = false := by
  obtain ⟨s, cs⟩ := c
  have hmembers (ms : List Member) : get? (ms.map (Member.field kind)) (.name "$") = none := by
    induction ms with
    | nil => rfl
    | cons m ms ih =>
      rw [map_cons, Member.field, get?_cons, ih]
      cases m <;> rfl
  have hfields : get? (s.fields kind (items kind cs)) (.name "$") = none := by
    rw [Shape.fields, get?_append, get?_append, hmembers, hmembers]
    split <;> rfl
  rw [toJson, isJavaDate, hfields]

theorem items_eq (cs : List Component) : items kind cs = cs.map (toJson kind) := by
  induction cs with
  | nil => rfl
  | cons c cs ih => rw [items, ih, map_cons]

theorem isContainer_toJson (c : Component) : (c.toJson kind).isContainer = true := by
  cases c
  rfl

/-! ## Trees -/

/-- What the components of a tree give, in document order, each with the position of its component. -/
def leaves (c : Component) : List (List Nat × (Text × Json)) :=
  c.gather (fun s => s.before.flatMap (Member.leaves kind)) (fun s => s.after.flatMap (Member.leaves kind))

/-- What the components of a row give, counted from an index. -/
def leavesRow (i : Nat) (cs : List Component) : List (List Nat × (Text × Json)) :=
  gatherRow (fun s => s.before.flatMap (Member.leaves kind)) (fun s => s.after.flatMap (Member.leaves kind)) i cs

/-- The entry of a leaf below a path. -/
def entry (c : Component) (base : Text) (x : List Nat × (Text × Json)) : Text × Json :=
  (c.pathAt base x.1 ++ x.2.1, x.2.2)

/-- A tree whose components can be flattened. -/
def IsReadable (c : Component) : Prop := ∀ p d, c.at? p = some d → d.shape.IsReadable kind

/-- The entries of the root and of the components below it. -/
theorem map_entry_leaves (s : Shape) (cs : List Component) (base : Text) :
    ((mk s cs).leaves kind).map ((mk s cs).entry base) =
      shift (base ++ s.step) (s.before.flatMap (Member.leaves kind)) ++
        ((leavesRow kind 0 cs).map ((mk s cs).entry base) ++
        shift (base ++ s.step) (s.after.flatMap (Member.leaves kind))) := by
  have hown (ls : Flat) : (ls.map (([] : List Nat), ·)).map ((mk s cs).entry base) = shift (base ++ s.step) ls := by
    rw [map_map]
    rfl
  rw [leaves, gather, map_append, map_append, hown, hown, append_assoc]
  rfl

/-- **The entries of a tree**, if it can be flattened. -/
theorem entries_toJson_iff (h : base ≠ []) :
    View.entries base (c.toJson kind) = .ok es ↔ c.IsReadable kind ∧ es = (c.leaves kind).map (c.entry base) := by
  induction c using induction generalizing base es with
  | h s cs ih =>
    have hrow (es : Flat) : entriesItems (base ++ s.step ++ ".children") 0 (items kind cs) = .ok es ↔
        (∀ d ∈ cs, d.IsReadable kind) ∧ es = (leavesRow kind 0 cs).map ((mk s cs).entry base) := by
      have hitem (e : Component × Nat) (he : e ∈ cs.zipIdx) (own : Flat) :
          itemEntries (base ++ s.step ++ ".children") e.2 (e.1.toJson kind) = .ok own ↔ e.1.IsReadable kind ∧
            own = ((e.1.leaves kind).map fun x => (e.2 :: x.1, x.2)).map ((mk s cs).entry base) := by
        rw [itemEntries, if_pos (isContainer_toJson kind _), ih e.1 (fst_mem_of_mem_zipIdx he) (item_ne_nil _ _),
          map_map]
        refine and_congr_right fun _ => Eq.congr_right (map_congr_left fun x _ => ?_)
        rw [Function.comp_apply, entry, entry, pathAt_cons (mem_zipIdx_iff_getElem?.mp he)]
        rfl
      rw [entriesItems_eq, items_eq, zipIdx_map, row_map, leavesRow, gatherRow_eq, map_flatMap]
      exact (row_iff hitem).trans (and_congr_left fun _ => forall_mem_zipIdx_fst)
    have hhere : base ++ s.step ≠ [] := by simp [h]
    have hchildren (es : Flat) : entriesFields (base ++ s.step)
        (if s.hasRow || !(items kind cs).isEmpty then [(.name "children", .arr (items kind cs))] else []) = .ok es ↔
          (∀ d ∈ cs, d.IsReadable kind) ∧ es = (leavesRow kind 0 cs).map ((mk s cs).entry base) := by
      refine Iff.trans ?_ (hrow es)
      split
      · have hkey : child (base ++ s.step) (Key.name "children").display = base ++ s.step ++ ".children" := by
          rw [child_of_ne_nil hhere, append_assoc]
          rfl
        have hpart : partEntries (child (base ++ s.step) (Key.name "children").display) (.arr (items kind cs)) =
            entriesItems (base ++ s.step ++ ".children") 0 (items kind cs) := by
          rw [hkey]
          rfl
        rw [entriesFields_eq_ok_iff, hpart]
        simp [entriesFields, eq_comm]
      · next hno =>
        have hnil : items kind cs = [] := by
          cases hitems : items kind cs with
          | nil => rfl
          | cons x xs => simp [hitems] at hno
        rw [hnil]
        rfl
    have hinside : View.entries base ((mk s cs).toJson kind) =
        entriesFields (base ++ s.step) (s.fields kind (items kind cs)) := by
      rw [toJson, View.entries, inside_fields kind h]
      rfl
    rw [hinside, Shape.fields, entriesFields_append_eq_ok_iff]
    simp only [entriesFields_append_eq_ok_iff, entriesFields_members_iff kind hhere, hchildren, IsReadable,
      forall_at?_mk_iff, map_entry_leaves, Shape.IsReadable, Shape.members, forall_mem_append]
    constructor
    · rintro ⟨_, _, ⟨_, _, ⟨hbefore, rfl⟩, ⟨hcs, rfl⟩, rfl⟩, ⟨hafter, rfl⟩, rfl⟩
      exact ⟨⟨⟨hbefore, hafter⟩, hcs⟩, append_assoc ..⟩
    · rintro ⟨⟨⟨hbefore, hafter⟩, hcs⟩, rfl⟩
      exact ⟨_, _, ⟨_, _, ⟨hbefore, rfl⟩, ⟨hcs, rfl⟩, rfl⟩, ⟨hafter, rfl⟩, (append_assoc ..).symm⟩

/-- The entries of a view, in document order. -/
def listing (c : Component) : Flat := (c.leaves kind).map (c.entry "root")

theorem entries_view_iff : View.entries "" (c.view kind) = .ok es ↔ c.IsReadable kind ∧ es = c.listing kind := by
  have hroot : View.entries "" (c.view kind) = entriesFields "" [(.name "root", c.toJson kind)] := rfl
  have hpart : partEntries (child "" (Key.name "root").display) (c.toJson kind) =
      View.entries "root" (c.toJson kind) := by
    rw [partEntries, isJavaDate_toJson, isContainer_toJson]
    rfl
  rw [hroot, entriesFields_eq_ok_iff, hpart, listing, ← entries_toJson_iff kind (by decide)]
  simp [entriesFields]

theorem flatten_view_iff {flat : Flat} :
    flatten (c.view kind) = .ok flat ↔ c.IsReadable kind ∧ flat = ofPairs (c.listing kind) := by
  rw [View.flatten, flattenAt, map_eq_ok]
  simp only [entries_view_iff]
  constructor
  · rintro ⟨_, ⟨hc, rfl⟩, rfl⟩
    exact ⟨hc, rfl⟩
  · rintro ⟨hc, rfl⟩
    exact ⟨_, ⟨hc, rfl⟩, rfl⟩

/-! ## Plain objects -/

theorem partEntries_obj {fields : List (Key × Json)} (hdate : (obj kind fields).isJavaDate = false)
    (hname : componentName? fields = .ok none) (here : Text) :
    partEntries here (.obj kind fields) = entriesFields here fields := by
  rw [partEntries, hdate]
  change entries here (.obj kind fields) = _
  rw [entries, inside, hname]
  rfl

theorem entriesFields_singleton (here : Text) (f : Key × Json) :
    entriesFields here [f] = partEntries (child here f.1.display) f.2 := by
  rw [entriesFields_eq, row_cons]
  cases partEntries (child here f.1.display) f.2 with
  | error e => rfl
  | ok own => exact congrArg Except.ok (append_nil own)

end Component

end ViewLint
