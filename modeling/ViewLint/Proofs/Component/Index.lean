import ViewLint.Proofs.Component.Flatten
import ViewLint.Proofs.Component.Paths

/-!
# The tree that the rule builds

The rule never sees the tree of the components. It collects names from a flattened view, and reads off
from each path which component is the parent.

* `Flat.named`, `Model.ofNodes_offered`: the tree is built from the names in the flattened view.
* `Component.NoStrays`: no other value is taken for the name of a child.
* **`Component.child?_index`**, **`Component.parent?_index`**: the steps in the tree that is built are steps in the
  tree of the components.
-/

namespace ViewLint

open List Option Text Fields Flat ComponentTree

/-! ## Building from paths and names -/

namespace ComponentTree

/-- The tree that is built from paths and names. -/
def grow (nodes : List (Text × Json)) : ComponentTree := nodes.foldl (fun t n => t.add n.1 n.2) {}

/-- The parent that a component is put under. -/
def parentOf (path : Text) : Option Text := (parentPath? path).filter fun parent => !parent.isEmpty

theorem grow_concat (nodes : List (Text × Json)) (n : Text × Json) :
    grow (nodes ++ [n]) = (grow nodes).add n.1 n.2 := by
  rw [grow, grow, foldl_append]
  rfl

/-- What a component adds: its name, and its place under its parent if it has one. -/
theorem add_eq (t : ComponentTree) (path : Text) (name : Json) :
    (t.add path name).names = insert t.names path name ∧
      (t.add path name).parents = (parentOf path).elim t.parents (insert t.parents path) ∧
      (t.add path name).children =
        (parentOf path).elim t.children fun parent => modify t.children parent [] (· ++ [path]) := by
  rw [add, parentOf]
  cases parentPath? path with
  | none => exact ⟨rfl, rfl, rfl⟩
  | some parent => cases parent <;> exact ⟨rfl, rfl, rfl⟩

theorem names_grow (nodes : List (Text × Json)) : (grow nodes).names = ofPairs nodes := by
  induction nodes using reverseRecOn with
  | nil => rfl
  | append_singleton nodes n ih =>
    rw [grow_concat, (add_eq _ _ _).1, ih, ofPairs, ofPairs, foldl_append]
    rfl

theorem parent?_grow (nodes : List (Text × Json)) (path : Text) :
    (grow nodes).parent? path = if (nodes.map (·.1)).contains path then parentOf path else none := by
  induction nodes using reverseRecOn with
  | nil => rfl
  | append_singleton nodes n ih =>
    rw [parent?] at ih ⊢
    rw [grow_concat, (add_eq _ _ _).2.1, map_append, contains_append]
    by_cases hn : path = n.1
    · subst hn
      cases hparent : parentOf n.1 <;> simp [get?_insert, ih, hparent]
    · rw [show (map (·.1) [n]).contains path = false by simpa using hn, Bool.or_false, ← ih]
      cases parentOf n.1 <;> simp [get?_insert, Ne.symm hn]

/-- The children of a path are the components that are put under it, in order. -/
theorem children_grow (nodes : List (Text × Json)) (path : Text) : (get? (grow nodes).children path).getD [] =
      (nodes.map (·.1)).filter fun other => decide (parentOf other = some path) := by
  induction nodes using reverseRecOn with
  | nil => rfl
  | append_singleton nodes n ih =>
    rw [grow_concat, (add_eq _ _ _).2.2, map_append, filter_append, ← ih]
    cases hparent : parentOf n.1 with
    | none => simp [hparent]
    | some parent =>
      rw [Option.elim_some, Fields.modify, Fields.get?_insert]
      by_cases hp : parent = path <;> simp [hp, hparent]

end ComponentTree

/-! ## The names in a flattened view -/

theorem beforeLast_append_self (needle a : Text) : beforeLast needle (a ++ needle) = a := by
  rw [beforeLast, rcut?_append_self]
  rfl

namespace Flat

/-- The paths of the components of a flattened view, with their names. -/
def named (flat : Flat) : List (Text × Json) :=
  flat.filterMap fun e =>
    if endsWith e.1 ".meta.name" then some (beforeLast ".meta.name" e.1, e.2) else none

theorem filter_named (flat : Flat) (path : Text) :
    flat.named.filter (·.1 == path) = (flat.filter (·.1 == path ++ ".meta.name")).map fun e => (path, e.2) := by
  induction flat with
  | nil => rfl
  | cons e flat ih =>
    rw [named] at ih ⊢
    rw [filterMap_cons, filter_cons]
    by_cases hends : endsWith e.1 ".meta.name" = true
    · obtain ⟨front, hfront⟩ := isSuffixOf_iff_suffix.mp hends
      simp only [hends, if_true, filter_cons, ih]
      rw [← hfront, beforeLast_append_self]
      by_cases hpath : front = path <;> simp [hpath]
    · have hother : ¬ (e.1 == path ++ ".meta.name") = true := by
        rw [beq_iff_eq]
        intro h
        exact hends (isSuffixOf_iff_suffix.mpr ⟨path, h.symm⟩)
      rw [if_neg hends, if_neg hother]
      exact ih

/-- Whether an entry gives a name to a component that is put under a path. -/
def isNameBelow (parent path : Text) : Bool :=
  endsWith path ".meta.name" &&
    decide (ComponentTree.parentOf (beforeLast ".meta.name" path) = some parent)

theorem isNameBelow_append (parent path : Text) :
    isNameBelow parent (path ++ ".meta.name") = decide (parentOf path = some parent) := by
  have hends : endsWith (path ++ ".meta.name") ".meta.name" = true :=
    isSuffixOf_iff_suffix.mpr (suffix_append _ _)
  rw [isNameBelow, hends, beforeLast_append_self, Bool.true_and]

/-- The components that are put under a path are given by the entries with their names. -/
theorem filter_named_below (flat : Flat) (parent : Text) :
    (flat.named.map (·.1)).filter (fun path => decide (parentOf path = some parent)) =
      (flat.filter fun e => isNameBelow parent e.1).map fun e => beforeLast ".meta.name" e.1 := by
  induction flat with
  | nil => rfl
  | cons e flat ih =>
    rw [named] at ih ⊢
    by_cases hends : endsWith e.1 ".meta.name" = true
    · simp only [filterMap_cons, hends, if_true, map_cons, filter_cons, ih, isNameBelow, Bool.true_and]
      split <;> simp
    · simpa [isNameBelow, hends] using ih

end Flat

/-! ## From the model to the tree -/

namespace ComponentTree

/-- A tree with one more node, which counts only if it is a component. -/
def put (t : ComponentTree) (n : Node) : Except Fault ComponentTree :=
  match n.data with
  | .component name _ _ => do return t.add n.path (← name.lookupKey)
  | _ => .ok t

theorem foldlM_put_components {nodes : List Node}
    (h : ∀ n ∈ nodes, ∃ name type props, n.data = .component name type props ∧ name.isContainer = false)
    (t : ComponentTree) :
    nodes.foldlM put t = .ok ((nodes.map fun n => (n.path, n.name?.getD .null)).foldl (fun t n => t.add n.1 n.2) t) := by
  induction nodes generalizing t with
  | nil => rfl
  | cons n nodes ih =>
    obtain ⟨name, type, props, hdata, hname⟩ := h n mem_cons_self
    have hput : t.put n = .ok (t.add n.path (n.name?.getD .null)) := by
      rw [put, Node.name?, hdata]
      simp only [Json.lookupKey, hname]
      rfl
    rw [foldlM_cons, hput]
    exact ih (fun m hm => h m (mem_cons_of_mem _ hm)) _

theorem foldlM_put_rest {nodes : List Node} (h : ∀ n ∈ nodes, n.kind ≠ .component) (t : ComponentTree) :
    nodes.foldlM put t = .ok t := by
  induction nodes with
  | nil => rfl
  | cons n nodes ih =>
    have hput : t.put n = .ok t := by
      rw [put]
      split
      · next hdata => exact absurd (by rw [Node.kind, hdata]; rfl) (h n mem_cons_self)
      · rfl
    rw [foldlM_cons, hput]
    exact ih fun m hm => h m (mem_cons_of_mem _ hm)

end ComponentTree

theorem Flat.map_components (flat : Flat) :
    (flat.components.map fun n => (n.path, n.name?.getD .null)) = flat.named := by
  rw [components, map_filterMap]
  refine filterMap_congr fun e _ => ?_
  simp only
  split <;> rfl

theorem Model.offered_eq {flat : Flat} {model : Model} (hmodel : build flat = .ok model) :
    ∃ rest, model.offered = flat.components ++ rest ∧ ∀ n ∈ rest, n.kind ≠ .component := by
  obtain ⟨methods, -, hmodel⟩ := bind_eq_ok.mp hmodel
  cases hmodel
  refine ⟨_, rfl, fun n hn => ?_⟩
  obtain ⟨kind, hkind, hn⟩ := mem_flatMap.mp hn
  have hofKind {nodes : List Node} (hne : kind ≠ .component) (hn : n ∈ ofKind nodes kind) : n.kind ≠ .component := by
    obtain ⟨-, hk⟩ := mem_filter.mp hn
    rwa [eq_of_beq hk]
  cases kind with
  | component => simp at hkind
  | property => rw [kind_of_mem_properties hn]; decide
  | _ =>
    simp only [nodesOf] at hn
    split at hn <;> exact hofKind (by decide) hn

theorem Model.ofNodes_offered {flat : Flat} {model : Model} (hmodel : build flat = .ok model)
    (hsingle : ∀ e ∈ flat, e.2.isContainer = false) :
    ofNodes model.offered = .ok (grow flat.named) := by
  obtain ⟨rest, hoffered, hrest⟩ := offered_eq hmodel
  have hcomponents : ∀ n ∈ flat.components, ∃ name type props,
      n.data = .component name type props ∧ name.isContainer = false := fun n hn => by
    obtain ⟨name, type, hdata, hentry⟩ := of_mem_components hn
    exact ⟨name, type, _, hdata, hsingle _ hentry⟩
  change model.offered.foldlM put {} = _
  rw [hoffered, foldlM_append, foldlM_put_components hcomponents, map_components]
  exact foldlM_put_rest hrest _

/-! ## The names in a tree -/

namespace Component

variable {x : List Nat × (Text × Json)} (kind : ObjectKind) {m : Member} {l : Text × Json}
  {c : Component} {p : List Nat}

theorem Member.prefix_of_mem_leaves (h : l ∈ m.leaves kind) : m.head <+: l.1 := by
  rw [leaves] at h
  split at h
  · next es hes => exact View.prefix_of_mem_partEntries hes h
  · cases h

/-- What a member gives is no part of a child. -/
theorem Member.isOwn_of_mem_leaves (h : l ∈ m.leaves kind) : IsOwn l.1 := by
  rintro ⟨r, hr⟩
  obtain ⟨t, ht⟩ := prefix_of_mem_leaves kind h
  rw [← ht] at hr
  cases m <;> simp [head, key, ofString] at hr

theorem Member.ne_of_mem_leaves (hm : m.name? = none) (h : l ∈ m.leaves kind) : l.1 ≠ ".meta.name" := by
  intro hl
  obtain ⟨t, ht⟩ := prefix_of_mem_leaves kind h
  rw [← ht] at hl
  cases m with
  | name n => cases hm
  | type _ | propConfig _ => simp [head, key, ofString] at hl

theorem mem_leaves_iff : (p, l) ∈ c.leaves kind ↔ ∃ d, c.at? p = some d ∧ ∃ m ∈ d.shape.members, l ∈ m.leaves kind := by
  rw [leaves, mem_gather_iff]
  simp only [← flatMap_append, mem_flatMap, Shape.members]

theorem isSome_of_mem_leaves (h : x ∈ c.leaves kind) : (c.at? x.1).isSome = true := by
  obtain ⟨d, hd, -⟩ := (mem_leaves_iff kind).mp h
  rw [hd]
  rfl

theorem isOwn_of_mem_leaves (h : x ∈ c.leaves kind) : IsOwn x.2.1 := by
  obtain ⟨d, -, m, -, hl⟩ := (mem_leaves_iff kind).mp h
  exact m.isOwn_of_mem_leaves kind hl

/-- The values in a flattened view are single. -/
theorem isContainer_of_mem_listing {e : Text × Json} (h : e ∈ ofPairs (c.listing kind)) :
    e.2.isContainer = false := by
  obtain ⟨x, hx, rfl⟩ := mem_map.mp (mem_of_mem_ofPairs h)
  obtain ⟨d, -, m, -, hl⟩ := (mem_leaves_iff kind).mp hx
  rw [Member.leaves] at hl
  split at hl
  · next es hes => exact View.isContainer_of_mem_partEntries (e := x.2) hes hl
  · cases hl

theorem isOwn_name : IsOwn ".meta.name" := by
  rintro ⟨r, hr⟩
  simp [ofString] at hr

theorem filter_leaves_name {ms : List Member} (h : (ms.map Member.key).Nodup) :
    (ms.flatMap (Member.leaves kind)).filter (·.1 == (".meta.name" : Text)) =
      (ms.findSome? Member.name?).toList.map fun n => ((".meta.name" : Text), Json.str n) := by
  have hnone {m : Member} (hm : m.name? = none) : (m.leaves kind).filter (·.1 == (".meta.name" : Text)) = [] := by
    rw [filter_eq_nil_iff]
    intro l hl
    simpa using m.ne_of_mem_leaves kind hm hl
  induction ms with
  | nil => rfl
  | cons m ms ih =>
    rw [map_cons, nodup_cons] at h
    rw [flatMap_cons, filter_append, findSome?_cons]
    cases hm : m.name? with
    | none => rw [hnone hm, nil_append, ih h.2]
    | some n =>
      have hrest : (ms.flatMap (Member.leaves kind)).filter (·.1 == (".meta.name" : Text)) = [] := by
        rw [filter_flatMap, flatMap_eq_nil_iff]
        intro m' hm'
        refine hnone ?_
        cases hname : m'.name? with
        | none => rfl
        | some n' =>
          cases m with
          | name _ =>
            cases m' with
            | name _ => exact absurd (mem_map.mpr ⟨_, hm', rfl⟩) h.1
            | type _ | propConfig _ => cases hname
          | type _ | propConfig _ => cases hm
      cases m with
      | name n' =>
        cases hm
        rw [hrest, Member.leaves_name, append_nil]
        rfl
      | type _ | propConfig _ => cases hm

theorem filter_shape_name (s : Shape) :
    (s.before.flatMap (Member.leaves kind) ++ s.after.flatMap (Member.leaves kind)).filter
        (·.1 == (".meta.name" : Text)) = s.name?.toList.map fun n => ((".meta.name" : Text), Json.str n) := by
  rw [← flatMap_append]
  exact filter_leaves_name kind s.distinct

theorem filter_listing_name {d : Component} (hd : c.at? p = some d) :
    (c.listing kind).filter (·.1 == c.pathAt "root" p ++ ".meta.name") =
      d.shape.name?.toList.map fun n => (c.pathAt "root" p ++ ".meta.name", .str n) := by
  have hp : (c.at? p).isSome = true := by rw [hd]; rfl
  have hfilter : (c.leaves kind).filter ((·.1 == c.pathAt "root" p ++ ".meta.name") ∘ c.entry "root") =
      ((c.leaves kind).filter (·.1 == p)).filter (·.2.1 == (".meta.name" : Text)) := by
    rw [List.filter_filter]
    refine filter_congr fun x hx => ?_
    rw [Function.comp_apply, entry, Bool.eq_iff_iff, Bool.and_eq_true, beq_iff_eq, beq_iff_eq, beq_iff_eq]
    constructor
    · intro h
      exact (eq_of_pathAt_append (isSome_of_mem_leaves kind hx) hp (isOwn_of_mem_leaves kind hx) isOwn_name h).symm
    · rintro ⟨hs, hq⟩
      rw [hs, hq]
  rw [listing, List.filter_map, hfilter, leaves, filter_gather, hd, Option.elim_some, List.filter_map]
  have htest : ((fun x : List Nat × (Text × Json) => x.2.1 == (".meta.name" : Text)) ∘ fun l => (p, l)) =
      (·.1 == (".meta.name" : Text)) := rfl
  rw [htest, filter_shape_name, List.map_map, List.map_map]
  rfl

/-- No value but a name is taken for the name of a component below another one. -/
def NoStrays (c : Component) : Prop :=
  ∀ x ∈ c.leaves kind, x.2.1 ≠ ".meta.name" → ∀ path, c.pathAt "root" x.1 ++ x.2.1 = path ++ ".meta.name" →
    ∀ p, (c.at? p).isSome = true → ComponentTree.parentPath? path ≠ some (c.pathAt "root" p)

section Steps

variable {p : List Nat} {c d : Component} (hplain : ∀ n ∈ c.names, IsPlain n) (hstrays : c.NoStrays kind)

theorem pathAt_ne_nil (p : List Nat) : c.pathAt "root" p ≠ [] := by
  obtain ⟨r, hr⟩ := exists_pathAt_eq_append c "root" p
  rw [hr]
  simp [ofString]

include hplain

theorem nameAt_ne_nil_iff (hd : c.at? p = some d) : c.nameAt p ≠ [] ↔ d.shape.name?.isSome = true := by
  rw [nameAt, hd, Option.bind_some]
  cases hname : d.shape.name? with
  | none => simp
  | some n => simpa using (hplain n (mem_names_iff.mpr ⟨p, d, hd, hname⟩)).ne_nil

theorem parentOf_pathAt {q : List Nat} (hq : (c.at? q).isSome = true) (hname : c.nameAt q ≠ []) :
    parentOf (c.pathAt "root" q) = if q = [] then none else some (c.pathAt "root" q.dropLast) := by
  rw [parentOf, parentPath?_pathAt hplain hq hname]
  split
  · rfl
  · rw [filter_some_pos]
    simpa using pathAt_ne_nil q.dropLast

include hstrays

theorem filter_listing_children (hd : c.at? p = some d) :
    (c.listing kind).filter (fun e => Flat.isNameBelow (c.pathAt "root" p) e.1) = d.children.zipIdx.flatMap fun e =>
        e.1.shape.name?.toList.map fun n => (c.pathAt "root" (p ++ [e.2]) ++ ".meta.name", .str n) := by
  have hp : (c.at? p).isSome = true := by rw [hd]; rfl
  have hfilter : (c.leaves kind).filter ((fun e => Flat.isNameBelow (c.pathAt "root" p) e.1) ∘ c.entry "root") =
      ((c.leaves kind).filter fun x => isChildOf p x.1).filter (·.2.1 == (".meta.name" : Text)) := by
    rw [List.filter_filter]
    refine filter_congr fun x hx => ?_
    have hq := isSome_of_mem_leaves kind hx
    rw [Function.comp_apply, entry]
    by_cases hs : x.2.1 = ".meta.name"
    · -- A name, of a component that has one.
      obtain ⟨e, he, m, hm, hl⟩ := (mem_leaves_iff kind).mp hx
      have hname : c.nameAt x.1 ≠ [] := by
        rw [nameAt_ne_nil_iff hplain he, Shape.name?, findSome?_isSome_iff]
        refine ⟨m, hm, ?_⟩
        cases hm' : m.name? with
        | none => exact absurd hs (m.ne_of_mem_leaves kind hm' hl)
        | some n => rfl
      rw [hs, Flat.isNameBelow_append, parentOf_pathAt hplain hq hname, beq_self_eq_true, Bool.true_and]
      rcases eq_nil_or_concat' x.1 with hx | ⟨r, i, hx⟩
      · simp [hx, isChildOf]
      · rw [hx] at hq ⊢
        rw [if_neg (by simp), dropLast_concat, isChildOf_concat, Bool.eq_iff_iff, decide_eq_true_iff, beq_iff_eq,
          Option.some.injEq]
        constructor
        · exact pathAt_inj (isSome_at?_of_append hq) hp
        · intro h
          rw [h]
    · have hother : (x.2.1 == (".meta.name" : Text)) = false := beq_eq_false_iff_ne.mpr hs
      rw [hother, Bool.false_and, Flat.isNameBelow, Bool.and_eq_false_iff]
      by_cases hends : endsWith (c.pathAt "root" x.1 ++ x.2.1) ".meta.name" = true
      · obtain ⟨front, hfront⟩ := isSuffixOf_iff_suffix.mp hends
        refine .inr (decide_eq_false ?_)
        rw [← hfront, beforeLast_append_self, ComponentTree.parentOf, Option.filter_eq_some_iff]
        exact fun h => hstrays x hx hs front hfront.symm p hp h.1
      · exact .inl (Bool.eq_false_iff.mpr hends)
  rw [listing, List.filter_map, hfilter, leaves, filter_gather_children hd, filter_flatMap, map_flatMap]
  refine flatMap_congr fun e _ => ?_
  rw [List.filter_map]
  have htest : ((fun x : List Nat × (Text × Json) => x.2.1 == (".meta.name" : Text)) ∘ fun l => (p ++ [e.2], l)) =
      (·.1 == (".meta.name" : Text)) := rfl
  rw [htest, filter_shape_name, List.map_map, List.map_map]
  rfl

/-- The components that are put under a component are its children with names, in order. -/
theorem named_below (hd : c.at? p = some d) : ((Flat.named (ofPairs (c.listing kind))).map (·.1)).filter
        (fun path => decide (ComponentTree.parentOf path = some (c.pathAt "root" p))) =
      d.children.zipIdx.flatMap fun e => e.1.shape.name?.toList.map fun _ => c.pathAt "root" (p ++ [e.2]) := by
  have hsome {e : Component × Nat} (he : e ∈ d.children.zipIdx) : (c.at? (p ++ [e.2])).isSome = true := by
    rw [at?_concat_eq_some_iff.mpr ⟨d, hd, mem_zipIdx_iff_getElem?.mp he⟩]
    rfl
  have hindices : d.children.zipIdx.Pairwise fun e f => e.2 ≠ f.2 := by
    have h := nodup_range' (s := 0) (n := d.children.length)
    rw [← zipIdx_map_snd 0 d.children] at h
    exact pairwise_map.mp h
  have hdistinct : ((d.children.zipIdx.flatMap fun e => e.1.shape.name?.toList.map fun n =>
      (c.pathAt "root" (p ++ [e.2]) ++ ".meta.name", Json.str n)).map (·.1)).Nodup := by
    rw [map_flatMap, nodup_flatMap]
    refine ⟨fun e _ => by cases e.1.shape.name? <;> simp, ?_⟩
    refine (List.Pairwise.and_mem.mp hindices).imp fun {e f} ⟨he, hf, hne⟩ => ?_
    refine disjoint_left.mpr fun path hpe hpf => ?_
    simp only [List.map_map, List.mem_map, Function.comp_apply] at hpe hpf
    obtain ⟨_, -, rfl⟩ := hpe
    obtain ⟨_, -, hpath⟩ := hpf
    exact hne (by simpa using pathAt_inj (hsome he) (hsome hf) (List.append_cancel_right hpath).symm)
  rw [Flat.filter_named_below, filter_ofPairs, filter_listing_children kind hplain hstrays hd,
    ofPairs_of_nodup hdistinct, map_flatMap]
  refine flatMap_congr fun e _ => ?_
  rw [List.map_map]
  exact map_congr_left fun n _ => beforeLast_append_self _ _

end Steps

/-! ## Steps in the tree that is built -/

/-- The tree that the rule builds for a view. -/
def index (c : Component) : ComponentTree := .grow (Flat.named (Fields.ofPairs (c.listing kind)))

theorem filter_named_pathAt {d : Component} (hd : c.at? p = some d) :
    (Flat.named (ofPairs (c.listing kind))).filter (·.1 == c.pathAt "root" p) =
      d.shape.name?.toList.map fun n => (c.pathAt "root" p, .str n) := by
  rw [Flat.filter_named, filter_ofPairs (· == c.pathAt "root" p ++ ".meta.name"), filter_listing_name kind hd,
    Fields.ofPairs_of_nodup (by cases d.shape.name? <;> simp), List.map_map]
  rfl

theorem isNamed_index {d : Component} (hd : c.at? p = some d) (n : Text) :
    (c.index kind).isNamed (.str n) (c.pathAt "root" p) = decide (d.shape.name? = some n) := by
  rw [isNamed, index, names_grow, get?_ofPairs, filter_named_pathAt kind hd]
  cases d.shape.name? with
  | none => rfl
  | some m =>
    rw [Bool.eq_iff_iff]
    simp [Locator.equals_str_iff]

section Steps

variable {c d : Component} (hplain : ∀ n ∈ c.names, IsPlain n) (hstrays : c.NoStrays kind) {p : List Nat}
  (hd : c.at? p = some d)

include hplain hd

theorem parent?_index : (c.index kind).parent? (c.pathAt "root" p) =
      if p = [] ∨ d.shape.name? = none then none else some (c.pathAt "root" p.dropLast) := by
  have hcontains : ((named (ofPairs (c.listing kind))).map (·.1)).contains (c.pathAt "root" p) =
      d.shape.name?.isSome := by
    have hfilter := filter_named_pathAt kind hd
    rw [Bool.eq_iff_iff, contains_iff_mem, List.mem_map, Option.isSome_iff_exists]
    constructor
    · rintro ⟨e, he, hpath⟩
      have hmem : e ∈ (named (ofPairs (c.listing kind))).filter (·.1 == c.pathAt "root" p) :=
        mem_filter.mpr ⟨he, beq_iff_eq.mpr hpath⟩
      rw [hfilter] at hmem
      obtain ⟨n, hn, -⟩ := mem_map.mp hmem
      exact ⟨n, mem_toList.mp hn⟩
    · rintro ⟨n, hn⟩
      have hmem : (c.pathAt "root" p, Json.str n) ∈
          (named (ofPairs (c.listing kind))).filter (·.1 == c.pathAt "root" p) := by
        rw [hfilter, hn]
        exact mem_cons_self
      exact ⟨_, (mem_filter.mp hmem).1, rfl⟩
  rw [index, parent?_grow, hcontains]
  cases hname : d.shape.name? with
  | none => simp
  | some n =>
    have hp : (c.at? p).isSome = true := by rw [hd]; rfl
    have hne : c.nameAt p ≠ [] := (nameAt_ne_nil_iff hplain hd).mpr (by rw [hname]; rfl)
    simp [parentOf_pathAt hplain hp hne]

include hstrays

theorem child?_index (n : Text) :
    (c.index kind).child? (c.pathAt "root" p) (.str n) =
      (d.children.zipIdx.find? fun e => decide (e.1.shape.name? = some n)).map
        fun e => c.pathAt "root" (p ++ [e.2]) := by
  have hnamed : ∀ e ∈ d.children.zipIdx, (c.index kind).isNamed (.str n) (c.pathAt "root" (p ++ [e.2])) =
      decide (e.1.shape.name? = some n) := fun e he =>
    isNamed_index kind (at?_concat_eq_some_iff.mpr ⟨d, hd, mem_zipIdx_iff_getElem?.mp he⟩) n
  have hchildren : (get? (c.index kind).children (c.pathAt "root" p)).getD [] =
      d.children.zipIdx.flatMap fun e => e.1.shape.name?.toList.map fun _ => c.pathAt "root" (p ++ [e.2]) := by
    rw [index, children_grow, named_below kind hplain hstrays hd]
  rw [child?, hchildren]
  generalize d.children.zipIdx = es at hnamed
  induction es with
  | nil => rfl
  | cons e es ih =>
    rw [flatMap_cons, find?_append, ih fun f hf => hnamed f (mem_cons_of_mem _ hf), find?_cons]
    have he := hnamed e mem_cons_self
    cases hname : e.1.shape.name? with
    | none => simp
    | some m =>
      rw [hname] at he
      by_cases hm : m = n <;> simp [he, hm]

end Steps

end Component

end ViewLint
