import ViewLint.Proofs.Component.Index
import ViewLint.Proofs.EventScripts
import ViewLint.Proofs.MethodParts

/-!
# Custom methods of a view

The custom methods of a component stand in its `scripts` object. A view that holds a tree of components is flattened,
and the model of the flattened view lists the methods of all components.

* `Scripted`: a tree of components with scripts; `ScriptedView`: a view with such a tree.
* `Scripted.methods`: the custom methods of a tree, in document order.
* **`Model.custom_methods_kept_iff`**: the model lists the methods of a view, each with its own name, parameters and
  script, unless an index is too long to be read.
-/

namespace ViewLint

open View MethodPlace Text Component List Locator

/-! ## Components with scripts -/

/-- A value can be flattened, and no path in it looks like one of a custom method. -/
def View.IsQuiet (here : Text) (v : Json) : Prop :=
  ∃ es, partEntries here v = .ok es ∧ ∀ e ∈ es, Flat.isPart e = false

def plainFields (members : List (Text × Json)) : List (Key × Json) := members.map fun f => (.name f.1, f.2)

namespace Scripted

/-- The scripts of a component: its custom methods among others. -/
structure Scripts where
  before : List (Text × Json)
  methods : List Method
  after : List (Text × Json)
  distinct : (Text.ofString "customMethods" :: (before ++ after).map (·.1)).Nodup
  unnamed : Text.ofString "meta" ∉ (before ++ after).map (·.1)

/-- A member of a component besides its children. -/
inductive Member where
  | plain (key : Text) (value : Json)
  | scripts (scripts : Scripts)

namespace Member

def key : Member → Text
  | plain key _ => key
  | scripts _ => "scripts"

def toJson (kind : ObjectKind) : Member → Json
  | plain _ v => v
  | scripts s => .obj kind (plainFields s.before ++
      (.name "customMethods", .arr (s.methods.map (Method.toJson kind))) :: plainFields s.after)

def field (kind : ObjectKind) (m : Member) : Key × Json := (.name m.key, m.toJson kind)

def methods (path : Text) : Member → List MethodPlace
  | plain _ _ => []
  | scripts s => s.methods.zipIdx.map fun x => ⟨path, x.2, x.1⟩

/-- What a member holds besides custom methods, with the paths. -/
def others (path : Text) : Member → List (Text × Json)
  | plain key v => [(child path key, v)]
  | scripts s => (s.before ++ s.after).map fun f => (child (child path "scripts") f.1, f.2)

end Member

/-- A component without its children. -/
structure Shape where
  /-- The members before the children. -/
  before : List Member
  /-- The members after the children. -/
  after : List Member
  /-- Whether an empty row of children is written out. -/
  hasRow : Bool := false
  distinct : (Text.ofString "children" :: (before ++ after).map Member.key).Nodup

namespace Shape

def members (s : Shape) : List Member := s.before ++ s.after

/-- The fields of a component whose children are given as values. -/
def fields (kind : ObjectKind) (s : Shape) (items : List Json) : List (Key × Json) :=
  s.before.map (Member.field kind) ++ (if s.hasRow || !items.isEmpty then [(.name "children", .arr items)] else [])
    ++ s.after.map (Member.field kind)

/-- The path of a component: its name is a step of it. -/
def path (kind : ObjectKind) (s : Shape) (base : Text) : Text :=
  match inside base (s.fields kind []) with
  | .ok path => path
  | .error _ => base

/-- A component can be flattened, and what is not a custom method does not look like one. -/
structure IsReadable (kind : ObjectKind) (s : Shape) (base : Text) : Prop where
  named : ∃ name?, componentName? (s.fields kind []) = .ok name?
  others : ∀ m ∈ s.members, ∀ o ∈ m.others (s.path kind base), IsQuiet o.1 o.2

end Shape

end Scripted

/-- A tree of components with scripts. -/
inductive Scripted where
  | mk (shape : Scripted.Shape) (children : List Scripted)

namespace Scripted

/-- A property of trees holds if it passes from the children to the parent. -/
theorem induction {P : Scripted → Prop} (h : ∀ s cs, (∀ c ∈ cs, P c) → P (mk s cs)) : ∀ c, P c
  | mk s cs => h s cs fun c _ => induction h c

mutual

def toJson (kind : ObjectKind) : Scripted → Json
  | mk shape children => .obj kind (shape.fields kind (items kind children))

def items (kind : ObjectKind) : List Scripted → List Json
  | [] => []
  | c :: cs => c.toJson kind :: items kind cs

end

mutual

/-- The custom methods of a tree, in document order. -/
def methods (kind : ObjectKind) (base : Text) : Scripted → List MethodPlace
  | mk s cs => s.before.flatMap (Member.methods (s.path kind base))
      ++ methodsRow kind (child (s.path kind base) "children") 0 cs
      ++ s.after.flatMap (Member.methods (s.path kind base))

/-- The custom methods of a row of trees, counted from an index. -/
def methodsRow (kind : ObjectKind) (row : Text) : Nat → List Scripted → List MethodPlace
  | _, [] => []
  | i, c :: cs => methods kind (item row i) c ++ methodsRow kind row (i + 1) cs

end

mutual

def IsReadable (kind : ObjectKind) (base : Text) : Scripted → Prop
  | mk s cs => s.IsReadable kind base ∧ IsReadableRow kind (child (s.path kind base) "children") 0 cs

def IsReadableRow (kind : ObjectKind) (row : Text) : Nat → List Scripted → Prop
  | _, [] => True
  | i, c :: cs => IsReadable kind (item row i) c ∧ IsReadableRow kind row (i + 1) cs

end

end Scripted

/-! ## Entries that hold methods -/

/-- Entries hold those of some methods, in order, and of no other method. -/
def Flat.Lists (es : Flat) (ps : List MethodPlace) : Prop := es.filter isPart = ps.flatMap entries

namespace View

variable {path key : Text} {fields : List (Key × Json)}

/-- Flattening gives entries that hold those of some methods. -/
def Yields (x : Except Fault Flat) (ps : List MethodPlace) : Prop := ∃ es, x = .ok es ∧ es.Lists ps

theorem yields_nil : Yields (.ok []) [] := ⟨[], rfl, rfl⟩

theorem Yields.append {x y : Except Fault Flat} {ps qs : List MethodPlace} (hx : Yields x ps) (hy : Yields y qs) :
    Yields (x >>= fun own => y >>= fun rest => .ok (own ++ rest)) (ps ++ qs) := by
  obtain ⟨es, rfl, hes⟩ := hx
  obtain ⟨es', rfl, hes'⟩ := hy
  refine ⟨es ++ es', rfl, ?_⟩
  rw [Flat.Lists, filter_append, hes, hes', flatMap_append]

theorem yields_row {α : Type} {f : α → Except Fault Flat} {methods : α → List MethodPlace} {xs : List α}
    (h : ∀ x ∈ xs, Yields (f x) (methods x)) : Yields (row f xs) (xs.flatMap methods) := by
  induction xs with
  | nil => exact yields_nil
  | cons x xs ih =>
    obtain ⟨hx, hxs⟩ := forall_mem_cons.mp h
    rw [row_cons, flatMap_cons]
    exact hx.append (ih hxs)

theorem yields_fields {α : Type} {field : α → Key × Json} {methods : α → List MethodPlace}
    {xs : List α} (h : ∀ x ∈ xs, Yields (partEntries (child path (field x).1.display) (field x).2) (methods x)) :
    Yields (entriesFields path (xs.map field)) (xs.flatMap methods) := by
  rw [entriesFields_eq, row_map]
  exact yields_row h

theorem Yields.fields_append {more : List (Key × Json)} {ps qs : List MethodPlace}
    (h : Yields (entriesFields path fields) ps) (hmore : Yields (entriesFields path more) qs) :
    Yields (entriesFields path (fields ++ more)) (ps ++ qs) := by
  rw [entriesFields_eq] at h hmore ⊢
  rw [row_append]
  exact h.append hmore

theorem IsQuiet.yields {here : Text} {v : Json} (h : IsQuiet here v) : Yields (partEntries here v) [] := by
  obtain ⟨es, hes, hparts⟩ := h
  exact ⟨es, hes, filter_eq_nil_iff.mpr fun e he => by simp [hparts e he]⟩

theorem yields_plainFields {fs : List (Text × Json)} (h : ∀ f ∈ fs, IsQuiet (child path f.1) f.2) :
    Yields (entriesFields path (plainFields fs)) [] := by
  have hfields : Yields (entriesFields path (plainFields fs)) (fs.flatMap fun _ => []) :=
    yields_fields fun f hf => (h f hf).yields
  rwa [flatMap_eq_nil_iff.mpr fun _ _ => rfl] at hfields

theorem componentName?_of_unnamed (h : ∀ f ∈ fields, f.1 ≠ .name "meta") : componentName? fields = .ok none := by
  have hnone : Fields.get? fields (.name "meta") = none :=
    Option.eq_none_iff_forall_not_mem.mpr fun w hw => h _ (Json.mem_of_get? hw) rfl
  rw [componentName?, hnone]

theorem componentName?_plainFields {before after : List (Text × Json)}
    (h : ofString "meta" ∉ (before ++ after).map (·.1)) (hkey : key ≠ "meta") (v : Json) :
    componentName? (plainFields before ++ (.name key, v) :: plainFields after) = .ok none := by
  have hplain {fs : List (Text × Json)} {f : Key × Json} (hf : f ∈ plainFields fs) (heq : f.1 = .name "meta") :
      ofString "meta" ∈ fs.map (·.1) := by
    obtain ⟨g, hg, rfl⟩ := mem_map.mp hf
    exact Key.name.inj heq ▸ mem_map_of_mem hg
  refine componentName?_of_unnamed fun f hf heq => h ?_
  rw [map_append]
  obtain hf | hf := mem_append.mp hf
  · exact mem_append_left _ (hplain hf heq)
  · obtain rfl | hf := mem_cons.mp hf
    · exact absurd (Key.name.inj heq) hkey
    · exact mem_append_right _ (hplain hf heq)

/-- An object with a field of another key is no point in time. -/
theorem isJavaDate_of_mem {kind : ObjectKind} {v : Json}
    (hf : (.name key, v) ∈ fields) (h₁ : key ≠ "$") (h₂ : key ≠ "$ts") :
    (Json.obj kind fields).isJavaDate = false := by
  refine Bool.eq_false_iff.mpr fun hdate => ?_
  obtain ⟨tag, precision, nanos, stamp, -, -, -, hfields⟩ := Json.of_isJavaDate hdate
  obtain heq | heq := hfields _ hf
  · exact h₁ (Key.name.inj (Prod.mk.inj heq).1)
  · exact h₂ (Key.name.inj (Prod.mk.inj heq).1)

end View

namespace MethodPlace

variable (kind : ObjectKind) {p : MethodPlace}

theorem lists_entries (h : p.IsClear) : Flat.Lists p.entries [p] := by
  have hall : ∀ e ∈ p.entries, Flat.isPart e = true := by
    intro e he
    obtain ⟨rest, hrest⟩ := exists_of_mem_entries he
    rw [Flat.isPart, hrest, indexAfter?_path h]
    rfl
  rw [Flat.Lists, filter_eq_self.mpr hall, flatMap_singleton]

theorem path_ne_nil (p : MethodPlace) : p.path ≠ [] := item_ne_nil _ _

theorem partEntries_field (p : MethodPlace) (f : MethodField) :
    partEntries (child p.path f.key) (p.method.value f) = .ok (p.fieldEntries f) := by
  rw [child_of_ne_nil p.path_ne_nil, append_assoc]
  cases f with
  | name | script => rfl
  | params =>
    change entriesItems (p.path ++ ".params") 0 (p.method.params.map .str) = _
    rw [entriesItems_eq, zipIdx_map, row_map, fieldEntries, map_eq_flatMap]
    exact row_of_ok fun _ _ => rfl

theorem entries_toJson (p : MethodPlace) : View.entries p.path (p.method.toJson kind) = .ok p.entries := by
  have hfields (fs : List MethodField) : entriesFields p.path (fs.map fun f => (.name f.key, p.method.value f)) =
      .ok (fs.flatMap p.fieldEntries) := by
    rw [entriesFields_eq, row_map]
    exact row_of_ok fun f _ => p.partEntries_field f
  have hname : componentName? (p.method.layout.map fun f => (Key.name f.key, p.method.value f)) = .ok none := by
    refine componentName?_of_unnamed fun x hx => ?_
    obtain ⟨f, -, rfl⟩ := mem_map.mp hx
    change Key.name f.key ≠ .name "meta"
    cases f <;> decide
  rw [Method.toJson, View.entries, inside, hname]
  exact hfields p.method.layout

end MethodPlace

namespace Scripted

variable {p : MethodPlace} {base path : Text} (kind : ObjectKind)

/-! ## The entries of a tree -/

theorem Member.yields (hpath : path ≠ []) {m : Member}
    (hothers : ∀ o ∈ m.others path, IsQuiet o.1 o.2) (hclear : ∀ p ∈ m.methods path, p.IsClear) :
    Yields (partEntries (child path (m.field kind).1.display) (m.field kind).2) (m.methods path) := by
  cases m with
  | plain key v => exact (hothers _ (mem_singleton_self _)).yields
  | scripts s =>
    have hscripts : child path "scripts" ≠ [] := child_path_ne_nil hpath _
    have hquiet (f : Text × Json) (hf : f ∈ s.before ++ s.after) : IsQuiet (child (child path "scripts") f.1) f.2 :=
      hothers _ (mem_map_of_mem hf)
    have hmethods : Yields (entriesFields (child path "scripts")
        [(.name "customMethods", .arr (s.methods.map (Method.toJson kind)))]) ((scripts s).methods path) := by
      have hhere : child (child path "scripts") "customMethods" = path ++ ".scripts.customMethods" := by
        rw [child_of_ne_nil hscripts, child_of_ne_nil hpath]
        simp [ofString]
      rw [entriesFields_singleton]
      change Yields (entriesItems (child (child path "scripts") "customMethods") 0 _) _
      rw [hhere, entriesItems_eq, zipIdx_map, row_map, Member.methods, map_eq_flatMap]
      exact yields_row fun x hx =>
        ⟨_, entries_toJson kind ⟨path, x.2, x.1⟩, lists_entries (hclear _ (mem_map_of_mem hx))⟩
    change Yields (partEntries (child path "scripts") (.obj kind _)) _
    rw [partEntries_obj kind (isJavaDate_of_mem (mem_append_right _ mem_cons_self) (by decide) (by decide))
      (componentName?_plainFields s.unnamed (by decide) _)]
    have hbefore := yields_plainFields fun f hf => hquiet f (mem_append_left _ hf)
    have hafter := yields_plainFields fun f hf => hquiet f (mem_append_right _ hf)
    have hall := hbefore.fields_append (hmethods.fields_append hafter)
    rwa [nil_append, append_nil] at hall

theorem Shape.inside_fields {s : Shape}
    (hnamed : ∃ name?, componentName? (s.fields kind []) = .ok name?) (items : List Json) :
    inside base (s.fields kind items) = .ok (s.path kind base) := by
  have hrow (b : Bool) (items : List Json) : Fields.get? (if b then [(Key.name "children", Json.arr items)] else [])
      (.name "meta") = none := by
    cases b <;> rfl
  have hname : componentName? (s.fields kind items) = componentName? (s.fields kind []) := by
    simp only [componentName?, fields, Fields.get?_append, hrow]
  obtain ⟨name?, hsome⟩ := hnamed
  rw [path, inside, inside, hname, hsome]
  rfl

theorem Shape.prefix_path (s : Shape) (base : Text) : base <+: s.path kind base := by
  rw [path]
  split
  · next here h =>
    obtain ⟨name?, -, rfl⟩ := map_eq_ok.mp h
    cases name? with
    | none => exact prefix_rfl
    | some name => exact prefix_child base name.display
  · exact prefix_rfl

theorem yields_entries {c : Scripted} (hbase : base ≠ []) (hread : c.IsReadable kind base)
    (hclear : ∀ p ∈ c.methods kind base, p.IsClear) :
    Yields (View.entries base (c.toJson kind)) (c.methods kind base) := by
  induction c using induction generalizing base with
  | h s cs ih =>
    have hpath : s.path kind base ≠ [] := fun hnil => hbase (prefix_nil.mp (hnil ▸ s.prefix_path kind base))
    rw [IsReadable] at hread
    rw [methods] at hclear ⊢
    simp only [forall_mem_append] at hclear
    obtain ⟨⟨hbefore, hrow⟩, hafter⟩ := hclear
    obtain ⟨hs, hchildren⟩ := hread
    -- The children, counted from an index
    have hitems (row : Text) (ds : List Scripted) (hds : ds ⊆ cs) (i : Nat) (hread : IsReadableRow kind row i ds)
        (hclear : ∀ p ∈ methodsRow kind row i ds, p.IsClear) :
        Yields (entriesItems row i (items kind ds)) (methodsRow kind row i ds) := by
      induction ds generalizing i with
      | nil => exact yields_nil
      | cons d ds ihds =>
        rw [IsReadableRow] at hread
        rw [methodsRow] at hclear ⊢
        obtain ⟨hd, hds⟩ := cons_subset.mp hds
        obtain ⟨hown, hrest⟩ := forall_mem_append.mp hclear
        rw [items, entriesItems_eq, zipIdx_cons, row_cons, ← entriesItems_eq]
        refine Yields.append ?_ (ihds hds (i + 1) hread.2 hrest)
        cases d with
        | mk s' cs' => exact ih _ hd (item_ne_nil row i) hread.1 hown
    have hfield : Yields (entriesFields (s.path kind base) (if s.hasRow || !(items kind cs).isEmpty then
        [(.name "children", .arr (items kind cs))] else []))
        (methodsRow kind (child (s.path kind base) "children") 0 cs) := by
      split
      · rw [entriesFields_singleton]
        exact hitems (child (s.path kind base) "children") cs (List.Subset.refl cs) 0 hchildren hrow
      · next hno =>
        cases cs with
        | nil => exact yields_nil
        | cons c cs => simp [items] at hno
    have hmembers (ms : List Member) (hms : ∀ m ∈ ms, m ∈ s.members)
        (hclear : ∀ p ∈ ms.flatMap (Member.methods (s.path kind base)), p.IsClear) :
        Yields (entriesFields (s.path kind base) (ms.map (Member.field kind)))
          (ms.flatMap (Member.methods (s.path kind base))) :=
      yields_fields fun m hm => m.yields kind hpath (hs.others m (hms m hm)) fun p hp =>
        hclear p (mem_flatMap.mpr ⟨m, hm, hp⟩)
    rw [toJson, View.entries, s.inside_fields kind hs.named]
    exact ((hmembers s.before (fun _ => mem_append_left _) hbefore).fields_append hfield).fields_append
      (hmembers s.after (fun _ => mem_append_right _) hafter)

/-! ## Places of methods -/

theorem Member.owner_of_mem {m : Member} (h : p ∈ m.methods path) : p.owner = path ∧ m.key = "scripts" := by
  cases m with
  | plain key v => cases h
  | scripts s =>
    obtain ⟨x, -, rfl⟩ := mem_map.mp h
    exact ⟨rfl, rfl⟩

theorem exists_of_mem_methodsRow {row : Text} {i : Nat} {cs : List Scripted}
    (h : p ∈ methodsRow kind row i cs) : ∃ j c, i ≤ j ∧ c ∈ cs ∧ p ∈ c.methods kind (item row j) := by
  induction cs generalizing i with
  | nil => cases h
  | cons c cs ih =>
    rw [methodsRow, mem_append] at h
    obtain h | h := h
    · exact ⟨i, c, Nat.le_refl i, mem_cons_self, h⟩
    · obtain ⟨j, d, hj, hd, hp⟩ := ih h
      exact ⟨j, d, by omega, mem_cons_of_mem c hd, hp⟩

/-- The methods below a component have a path below its path. -/
theorem prefix_of_mem_methods {c : Scripted} (h : p ∈ c.methods kind base) : base <+: p.owner := by
  induction c using induction generalizing base with
  | h s cs ih =>
    have hmembers {ms : List Member} (h : p ∈ ms.flatMap (Member.methods (s.path kind base))) : base <+: p.owner := by
      obtain ⟨m, -, hp⟩ := mem_flatMap.mp h
      exact (Member.owner_of_mem hp).1 ▸ s.prefix_path kind base
    rw [methods, mem_append, mem_append] at h
    obtain (h | h) | h := h
    · exact hmembers h
    · obtain ⟨j, c, -, hc, hp⟩ := exists_of_mem_methodsRow kind h
      calc base
        _ <+: s.path kind base := s.prefix_path kind base
        _ <+: child (s.path kind base) "children" := prefix_child _ _
        _ <+: item (child (s.path kind base) "children") j := prefix_item _ j
        _ <+: p.owner := ih c hc hp
    · exact hmembers h

theorem nodup_spots (c : Scripted) (base : Text) : ((c.methods kind base).map spot).Nodup := by
  induction c using induction generalizing base with
  | h s cs ih =>
    have hown : ((s.members.flatMap (Member.methods (s.path kind base))).map spot).Nodup := by
      have hkeys := (nodup_cons.mp s.distinct).2
      rw [nodup_iff_pairwise_ne, pairwise_map] at hkeys
      rw [map_flatMap, nodup_flatMap]
      refine ⟨fun m _ => ?_, hkeys.imp fun {m n} hne x hx hy => ?_⟩
      · cases m with
        | plain key v => exact nodup_nil
        | scripts s' =>
          have hspots : ((Member.scripts s').methods (s.path kind base)).map spot =
              (range' 0 s'.methods.length).map fun i => (s.path kind base, i) := by
            rw [← zipIdx_map_snd, map_map, Member.methods, map_map]
            rfl
          rw [hspots]
          exact List.Nodup.map (fun i j hij => (Prod.mk.inj hij).2) nodup_range'
      · -- Only one member has custom methods
        obtain ⟨p, hp, rfl⟩ := mem_map.mp hx
        obtain ⟨q, hq, -⟩ := mem_map.mp hy
        exact hne ((Member.owner_of_mem hp).2.trans (Member.owner_of_mem hq).2.symm)
    have hrow (row : Text) (ds : List Scripted) (hds : ds ⊆ cs) (i : Nat) :
        ((methodsRow kind row i ds).map spot).Nodup := by
      induction ds generalizing i with
      | nil => exact nodup_nil
      | cons d ds ihds =>
        obtain ⟨hd, hds⟩ := cons_subset.mp hds
        rw [methodsRow, map_append, nodup_append]
        refine ⟨ih d hd _, ihds hds (i + 1), fun x hx y hy hxy => ?_⟩
        subst hxy
        obtain ⟨p, hp, rfl⟩ := mem_map.mp hx
        obtain ⟨q, hq, hspot⟩ := mem_map.mp hy
        obtain ⟨j, e, hj, -, hq⟩ := exists_of_mem_methodsRow kind hq
        obtain ⟨a, ha⟩ := prefix_of_mem_methods kind hp
        obtain ⟨b, hb⟩ := prefix_of_mem_methods kind hq
        have heq : item row i ++ a = item row j ++ b := by
          rw [ha, hb]
          exact (Prod.mk.inj hspot).1.symm
        have := (item_append_inj heq).1
        omega
    have hperm (xs ys zs : List MethodPlace) : (xs ++ ys ++ zs).Perm ((xs ++ zs) ++ ys) := by
      rw [append_assoc, append_assoc]
      exact perm_append_comm.append_left xs
    rw [methods, ((hperm _ _ _).map spot).nodup_iff, ← flatMap_append, map_append, nodup_append]
    refine ⟨hown, hrow _ cs (List.Subset.refl cs) 0, fun x hx y hy hxy => ?_⟩
    subst hxy
    obtain ⟨p, hp, rfl⟩ := mem_map.mp hx
    obtain ⟨q, hq, hspot⟩ := mem_map.mp hy
    obtain ⟨m, -, hp⟩ := mem_flatMap.mp hp
    obtain ⟨j, e, -, -, hq⟩ := exists_of_mem_methodsRow kind hq
    -- A method of a child has a longer path
    have howner : q.owner = s.path kind base := (Prod.mk.inj hspot).1.trans (Member.owner_of_mem hp).1
    have hchild := (prefix_child (s.path kind base) "children").length_le
    have hitem := (prefix_of_mem_methods kind hq).length_le
    rw [howner, item] at hitem
    simp only [length_append, ofString, length_map] at hitem hchild
    have : 0 < ("[" : String).toList.length := by decide
    omega

end Scripted

/-! ## Views -/

/-- A view with a tree of components. -/
structure ScriptedView where
  /-- The members before the tree. -/
  before : List (Text × Json)
  root : Scripted
  /-- The members after the tree. -/
  after : List (Text × Json)
  distinct : (Text.ofString "root" :: (before ++ after).map (·.1)).Nodup
  unnamed : Text.ofString "meta" ∉ (before ++ after).map (·.1)

namespace ScriptedView

variable (kind : ObjectKind) (v : ScriptedView)

def toJson : Json :=
  .obj kind (plainFields v.before ++ (.name "root", v.root.toJson kind) :: plainFields v.after)

/-- The custom methods of a view, in document order. -/
def methods : List MethodPlace := v.root.methods kind "root"

/-- A view can be flattened, and what is not a custom method does not look like one. -/
structure IsReadable : Prop where
  root : v.root.IsReadable kind "root"
  others : ∀ f ∈ v.before ++ v.after, IsQuiet f.1 f.2

/-- A component that stands for a point in time has no methods. -/
theorem methods_of_isJavaDate {c : Scripted} (h : (c.toJson kind).isJavaDate = true) (base : Text) :
    c.methods kind base = [] := by
  cases c with
  | mk s cs =>
    rw [Scripted.toJson] at h
    have hkey {key : Text} {v : Json} (hf : (.name key, v) ∈ s.fields kind (Scripted.items kind cs))
        (h₁ : key ≠ "$") (h₂ : key ≠ "$ts") : False := by
      rw [isJavaDate_of_mem hf h₁ h₂] at h
      cases h
    have hmembers (ms : List Scripted.Member)
        (hms : ∀ m ∈ ms, m.field kind ∈ s.fields kind (Scripted.items kind cs)) :
        ms.flatMap (Scripted.Member.methods (s.path kind base)) = [] := by
      refine flatMap_eq_nil_iff.mpr fun m hm => eq_nil_iff_forall_not_mem.mpr fun p hp => ?_
      refine hkey (hms m hm) ?_ ?_ <;> rw [(Scripted.Member.owner_of_mem hp).2] <;> decide
    have hcs : cs = [] := by
      cases cs with
      | nil => rfl
      | cons c cs =>
        refine (@hkey "children" (.arr (Scripted.items kind (c :: cs))) ?_ (by decide) (by decide)).elim
        simp [Scripted.Shape.fields, Scripted.items]
    rw [Scripted.methods, hmembers, hmembers, hcs]
    · rfl
    · exact fun m hm => mem_append_right _ (mem_map_of_mem hm)
    · exact fun m hm => mem_append_left _ (mem_append_left _ (mem_map_of_mem hm))

theorem yields_toJson (hread : v.IsReadable kind) (hclear : ∀ p ∈ v.methods kind, p.IsClear) :
    Yields (View.entries "" (v.toJson kind)) (v.methods kind) := by
  have hroot : Yields (partEntries "root" (v.root.toJson kind)) (v.methods kind) := by
    rw [partEntries]
    split
    · next hdate =>
      rw [methods, methods_of_isJavaDate kind hdate]
      have hpath : indexAfter? ".scripts.customMethods" (ofString "root" ++ "._JavaDate") = none := by decide
      refine ⟨_, rfl, filter_eq_nil_iff.mpr fun e he => ?_⟩
      obtain rfl := mem_singleton.mp he
      simp [Flat.isPart, hpath]
    · have hcontainer : (v.root.toJson kind).isContainer = true := by
        cases v.root
        rfl
      rw [if_pos hcontainer]
      exact Scripted.yields_entries kind (by decide) hread.root hclear
  have hbefore : Yields (entriesFields "" (plainFields v.before)) [] :=
    yields_plainFields fun f hf => hread.others f (mem_append_left _ hf)
  have hafter : Yields (entriesFields "" (plainFields v.after)) [] :=
    yields_plainFields fun f hf => hread.others f (mem_append_right _ hf)
  have hmid : Yields (entriesFields "" [(.name "root", v.root.toJson kind)]) (v.methods kind) := by
    rw [entriesFields_singleton]
    exact hroot
  rw [toJson, View.entries, inside, componentName?_plainFields v.unnamed (by decide)]
  have hall := hbefore.fields_append (hmid.fields_append hafter)
  rwa [nil_append, append_nil] at hall

end ScriptedView

/-- **Custom methods are kept.** A view with a tree of components is flattened. If no component with custom methods has
a path that looks like that of a method or of a parameter, then the model of the flattened view lists the methods of
all components, in document order, each with its path and with its own name, parameters and script, just if no index of
a method or a parameter is too long to be read. -/
theorem Model.custom_methods_kept_iff (kind : ObjectKind) (v : ScriptedView) (hread : v.IsReadable kind)
    (hclear : ∀ p ∈ v.methods kind, p.IsClear) :
    ∃ flat, View.flatten (v.toJson kind) = .ok flat ∧ ((∃ m, Model.build flat = .ok m ∧
      Fields.get? m.collections "custom_methods" = some ((v.methods kind).map MethodPlace.node)) ↔
        ∀ p ∈ v.methods kind, p.Fits) := by
  obtain ⟨es, hes, hlists⟩ := v.yields_toJson kind hread hclear
  have hnodup := v.root.nodup_spots kind "root"
  refine ⟨Fields.ofPairs es, by rw [View.flatten, flattenAt, hes]; rfl, ?_⟩
  have hflat : (Fields.ofPairs es).filter Flat.isPart = (v.methods kind).flatMap entries := by
    have hfilter : (Fields.ofPairs es).filter Flat.isPart = Fields.ofPairs (es.filter Flat.isPart) :=
      Fields.filter_ofPairs (fun path => (Text.indexAfter? ".scripts.customMethods" path).isSome) es
    rw [hfilter, hlists]
    exact Fields.ofPairs_of_nodup (Flat.nodup_flatMap_entries hclear hnodup)
  have hmethods (nodes : List Node) : Flat.customMethods (Fields.ofPairs es) = .ok nodes ↔ _ :=
    Flat.customMethods_iff hflat hclear hnodup
  constructor
  · rintro ⟨m, hm, -⟩
    exact ((hmethods _).mp (Model.ofKind_scripts_of_build hm).1).1
  · intro hfits
    have hnodes := (hmethods _).mpr ⟨hfits, rfl⟩
    obtain ⟨m, hm⟩ : ∃ m, Model.build (Fields.ofPairs es) = .ok m := ⟨_, bind_eq_ok.mpr ⟨_, hnodes, rfl⟩⟩
    have hkind := Except.ok.inj ((Model.ofKind_scripts_of_build hm).1.symm.trans hnodes)
    exact ⟨m, hm, congrArg some hkind⟩

/-- A panel with two custom methods, and a clock in it with one. -/
def panelView : ScriptedView where
  before := [("custom", .object [("mode", .str "day")])]
  root := .mk
    { before := [.plain "meta" (.object [("name", .str "Panel")]), .scripts
        { before := [("messageHandlers", .arr [])]
          methods := [⟨"refresh", ["first", "last"], "\tself.load(first, last)", [.script, .name, .params], by decide⟩,
            ⟨"reset", [], "\tpass", [.name, .params, .script], by decide⟩]
          after := []
          distinct := by decide
          unnamed := by decide }]
      after := []
      distinct := by decide }
    [.mk
      { before := []
        after := [.scripts
          { before := []
            methods := [⟨"tick", ["now"], "\treturn now", [.params, .script, .name], by decide⟩]
            after := []
            distinct := by decide
            unnamed := by decide }, .plain "meta" (.object [("name", .str "Clock")])]
        distinct := by decide } []]
  after := []
  distinct := by decide
  unnamed := by decide

/-- The methods of the panel and of the clock are found again. -/
theorem Model.custom_methods_kept_panelView : ∃ flat m, View.flatten (panelView.toJson .plain) = .ok flat ∧
    Model.build flat = .ok m ∧ Fields.get? m.collections "custom_methods" = some
      [⟨"root.Panel.scripts.customMethods[0]", .script ⟨.str "\tself.load(first, last)",
          .customMethod "refresh" ["first", "last"]⟩⟩,
        ⟨"root.Panel.scripts.customMethods[1]", .script ⟨.str "\tpass", .customMethod "reset" []⟩⟩,
        ⟨"root.Panel.children[0].Clock.scripts.customMethods[0]", .script ⟨.str "\treturn now",
          .customMethod "tick" ["now"]⟩⟩] := by
  have hread : panelView.IsReadable .plain := by
    refine ⟨⟨⟨⟨some (.str "Panel"), rfl⟩, ?_⟩, ⟨⟨⟨some (.str "Clock"), rfl⟩, ?_⟩, trivial⟩, trivial⟩, ?_⟩
    all_goals
      simp only [IsQuiet]
      decide +kernel
  have hclear : ∀ p ∈ panelView.methods .plain, p.IsClear := by
    have howners : ∀ p ∈ panelView.methods .plain, ¬ (".scripts.customMethods" : Text) <:+: p.owner ∧
        ¬ ("params[" : Text) <:+: p.owner := by decide +kernel
    exact fun p hp => ⟨(howners p hp).1, (howners p hp).2⟩
  have hfits : ∀ p ∈ panelView.methods .plain, p.Fits := by
    have hsizes : ∀ p ∈ panelView.methods .plain, p.index < 10 ∧ p.method.params.length ≤ 10 := by decide +kernel
    have hten {n : Nat} (hn : n ≠ 0) : 10 ≤ Nat.pow 10 n := Nat.le_self_pow hn 10
    have hlimit : Json.digitLimit ≠ 0 := by decide
    exact fun p hp => ⟨(hsizes p hp).1.trans_le (hten hlimit), (hsizes p hp).2.trans (hten hlimit)⟩
  obtain ⟨flat, hflat, hmodel⟩ := Model.custom_methods_kept_iff .plain panelView hread hclear
  obtain ⟨m, hm, hmethods⟩ := hmodel.mpr hfits
  exact ⟨flat, m, hflat, hm, hmethods⟩

end ViewLint
