import ViewLint.Proofs.Component.Index
import ViewLint.Proofs.Pieces

/-!
# Relative references walk the tree of the components

A relative reference goes some levels up and then down by names, each time to the first child with the
name. The rule does this in the tree that it has built, and arrives wherever the same walk leads in the tree
of the components.

* `Component.up`, `Component.descend`: the walk in the tree of the components.
* **`Component.checkRelative_walks`**: the rule complains about a reference just if the walk leaves the tree or
  fails.
-/

namespace ViewLint

open List Option Text ComponentTree

theorem ComponentTree.resolve?_eq (t : ComponentTree) (start reference : Text) :
    t.resolve? start reference = t.down? start ((splitOn "/" reference).map .str) := by
  rw [resolve?]
  split
  · rfl
  · next hno =>
    have hslash : .char '/' ∉ reference := fun hmem => by
      obtain ⟨a, b, rfl⟩ := append_of_mem hmem
      exact hno (holds_iff_isInfix.mpr ⟨a, b, by simp [ofString]⟩)
    have hone : splitOn "/" reference = [reference] := splitOn_of_not_mem hslash
    rw [hone, map_singleton, down?]
    exact (bind_fun_some _).symm

namespace Component

variable {p : List Nat}

/-! ## The walk -/

/-- The component that names lead down to, each time to the first child with the name. -/
def descend (c : Component) : List Text → Option Component
  | [] => some c
  | n :: rest => (c.children.find? fun d => decide (d.shape.name? = some n)).bind fun d => d.descend rest

/-- The position some levels up. The parent of a component without a name is not known. -/
def up (c : Component) : Nat → List Nat → Option (List Nat)
  | 0, p => some p
  | k + 1, p => if p = [] ∨ c.nameAt p = [] then none else c.up k p.dropLast

/-- A relative reference leads from one component to another. -/
def Arrives (c : Component) (p : List Nat) (r : ComponentTree.Relative) : Prop :=
  ∃ q e, c.up r.levels p = some q ∧ c.at? q = some e ∧ (e.descend (splitOn "/" r.reference)).isSome = true

theorem find?_children (d : Component) (n : Text) : d.children.find? (fun e => decide (e.shape.name? = some n)) =
      (d.children.zipIdx.find? fun e => decide (e.1.shape.name? = some n)).map (·.1) := by
  conv_lhs => rw [← zipIdx_map_fst 0 d.children, find?_map]
  rfl

section Walk

variable {kind : ObjectKind} {c : Component} (hplain : ∀ n ∈ c.names, IsPlain n) (hstrays : c.NoStrays kind)

theorem isSome_of_dropLast (h : (c.at? p).isSome = true) : (c.at? p.dropLast).isSome = true := by
  rcases eq_nil_or_concat' p with rfl | ⟨q, i, rfl⟩
  · exact h
  · rw [dropLast_concat]
    exact isSome_at?_of_append h

theorem isSome_of_up {k : Nat} {q : List Nat} (hp : (c.at? p).isSome = true) (h : c.up k p = some q) :
    (c.at? q).isSome = true := by
  induction k generalizing p with
  | zero => cases h; exact hp
  | succ k ih =>
    rw [up] at h
    split at h
    · cases h
    · exact ih (isSome_of_dropLast hp) h

include hplain

/-- Going up in the tree that is built. -/
theorem up?_index (hp : (c.at? p).isSome = true) (k : Nat) :
    (c.index kind).up? k (c.pathAt "root" p) = (c.up k p).map (c.pathAt "root") := by
  induction k generalizing p with
  | zero => rfl
  | succ k ih =>
    obtain ⟨d, hd⟩ := isSome_iff_exists.mp hp
    have hname : d.shape.name? = none ↔ c.nameAt p = [] := by
      rw [← not_iff_not, ← ne_eq, ← ne_eq, nameAt_ne_nil_iff hplain hd, isSome_iff_ne_none]
    rw [up?, up, parent?_index kind hplain hd]
    simp only [hname]
    split
    · rfl
    · exact ih (isSome_of_dropLast hp)

include hstrays

/-- Going down in the tree that is built. -/
theorem down?_index {d : Component} (hd : c.at? p = some d) (names : List Text) :
    (d.descend names = none ∧ (c.index kind).down? (c.pathAt "root" p) (names.map .str) = none) ∨
      ∃ q e, d.descend names = some e ∧ (c.index kind).down? (c.pathAt "root" p) (names.map .str) =
        some (c.pathAt "root" q) := by
  induction names generalizing p d with
  | nil => exact .inr ⟨p, d, rfl, rfl⟩
  | cons n names ih =>
    rw [descend, map_cons, down?, child?_index kind hplain hstrays hd, find?_children]
    cases hfind : d.children.zipIdx.find? fun e => decide (e.1.shape.name? = some n) with
    | none => exact .inl ⟨rfl, rfl⟩
    | some e =>
      have he := mem_zipIdx_iff_getElem?.mp (mem_of_find?_eq_some hfind)
      exact ih (at?_concat_eq_some_iff.mpr ⟨d, hd, he⟩)

theorem checkRelative_eq_none_iff (hp : (c.at? p).isSome = true) (key what title full : Text) (r : Relative) :
    (c.index kind).checkRelative (c.pathAt "root" p ++ ".propConfig." ++ key) what title full r = none ↔
      c.Arrives p r := by
  rw [checkRelative, ownerOf_propConfig hplain, up?_index hplain hp, Arrives]
  cases hup : c.up r.levels p with
  | none => simp
  | some q =>
    obtain ⟨d, hd⟩ := isSome_iff_exists.mp (isSome_of_up hp hup)
    simp only [map_some, resolve?_eq, some.injEq]
    obtain ⟨hnone, hdown⟩ | ⟨q', e, hsome, hdown⟩ :=
      down?_index hplain hstrays hd (splitOn "/" r.reference)
    · rw [hdown]
      simp [hd, hnone]
    · have hne : (c.pathAt "root" q').isEmpty = false := by simpa using pathAt_ne_nil q'
      rw [hdown]
      simp [hd, hsome, hne]

end Walk

/-! ## Trees in which every component has a name -/

/-- Every component has a name that can be told apart from the rest of a path. -/
def HasNames (c : Component) : Prop := ∀ p d, c.at? p = some d → ∃ n, d.shape.name? = some n ∧ IsPlain n

theorem HasNames.isPlain {c : Component} (h : c.HasNames) : ∀ n ∈ c.names, IsPlain n := by
  intro n hn
  obtain ⟨p, d, hd, hname⟩ := mem_names_iff.mp hn
  obtain ⟨m, hm, hplain⟩ := h p d hd
  cases hname.symm.trans hm
  exact hplain

theorem HasNames.nameAt_ne_nil {c : Component} (h : c.HasNames) (hp : (c.at? p).isSome = true) : c.nameAt p ≠ [] := by
  obtain ⟨d, hd⟩ := isSome_iff_exists.mp hp
  obtain ⟨n, hn, -⟩ := h p d hd
  rw [nameAt_ne_nil_iff h.isPlain hd, hn]
  rfl

theorem HasNames.up_eq {c : Component} (h : c.HasNames) (hp : (c.at? p).isSome = true) (k : Nat) :
    c.up k p = if k ≤ p.length then some (p.take (p.length - k)) else none := by
  induction k generalizing p with
  | zero => simp [up]
  | succ k ih =>
    rcases eq_nil_or_concat' p with rfl | ⟨q, i, rfl⟩
    · rfl
    · have hne : ¬ (q ++ [i] = [] ∨ c.nameAt (q ++ [i]) = []) := by simp [h.nameAt_ne_nil hp]
      rw [up, if_neg hne, dropLast_concat, ih (isSome_at?_of_append hp), length_append, length_singleton]
      by_cases hk : k ≤ q.length
      · have hlength : q.length + 1 - (k + 1) = q.length - k := by omega
        rw [if_pos hk, if_pos (by omega), hlength, take_append_of_le_length (Nat.sub_le _ _)]
      · rw [if_neg hk, if_neg (by omega)]

/-- What a name ends with does not overlap the beginning of a member. -/
theorem exists_of_append_eq {a head t path : Text} (hin : ∀ u ∈ (".meta.name" : Text).tails, ¬ head <+: u)
    (hover : ∀ u ∈ head.tails, u <+: ".meta.name" → u = []) (h : a ++ (head ++ t) = path ++ ".meta.name") :
    ∃ r, path = a ++ (head ++ r) := by
  obtain ⟨u, rfl, hu⟩ | ⟨w, rfl, hw⟩ := append_eq_append_iff.mp h
  · obtain ⟨r, rfl, -⟩ | ⟨r, hr, hmeta⟩ := append_eq_append_iff.mp hu
    · exact ⟨r, rfl⟩
    · obtain rfl := hover r ((mem_tails _ _).mpr ⟨u, hr.symm⟩) ⟨t, hmeta.symm⟩
      exact ⟨[], by rw [hr, append_nil, append_nil]⟩
  · exact absurd ⟨t, rfl⟩ (hin (head ++ t) ((mem_tails _ _).mpr ⟨w, hw.symm⟩))

theorem noStrays_of_hasNames {kind : ObjectKind} {c : Component} (h : c.HasNames)
    (hlines : ∀ e ∈ c.listing kind, .char '\n' ∉ e.1) : c.NoStrays kind := by
  intro x hx hs path hpath p hp
  obtain ⟨d, hd, m, hm, hl⟩ := (mem_leaves_iff kind).mp hx
  obtain ⟨t, ht⟩ := m.prefix_of_mem_leaves kind hl
  have hline : .char '\n' ∉ path := fun hmem => by
    refine hlines _ (mem_map_of_mem hx) ?_
    rw [entry, hpath]
    exact mem_append_left _ hmem
  obtain ⟨r, rfl⟩ : ∃ r, path = c.pathAt "root" x.1 ++ (m.head ++ r) := by
    rw [← ht] at hpath
    cases m with
    | name n =>
      rw [Member.leaves_name, mem_singleton] at hl
      exact absurd (congrArg Prod.fst hl) hs
    | type _ => exact @exists_of_append_eq _ ".type" _ _ (by decide) (by decide) hpath
    | propConfig _ => exact @exists_of_append_eq _ ".propConfig" _ _ (by decide) (by decide) hpath
  have hown : IsOwn (m.head ++ r) := by
    rintro ⟨u, hu⟩
    cases m <;> simp [Member.head, Member.key, ofString] at hu
  have hpoint : .char '.' ∈ m.head ++ r := by simp [Member.head, ofString]
  exact parentPath?_ne_of_isOwn (fun _ => h.nameAt_ne_nil) hp (isSome_of_mem_leaves kind hx) hown hpoint hline

/-- **Relative references walk the tree of the components.** If every component has a name, and no path of the
flattened view has a line feed in it, the rule complains about a relative reference of a binding just if going
up leaves the tree, or going down, each time to the first child with the name, fails. -/
theorem checkRelative_walks {kind : ObjectKind} {c : Component} {flat : Flat} {model : Model} (hnames : c.HasNames)
    (hflat : View.flatten (c.view kind) = .ok flat) (hlines : ∀ e ∈ flat, .char '\n' ∉ e.1)
    (hmodel : Model.build flat = .ok model) :
    ∃ tree, ComponentTree.ofNodes model.offered = .ok tree ∧ ∀ p d, c.at? p = some d →
      ∀ (k : Nat) (names : List Text), names ≠ [] → (∀ n ∈ names, .char '/' ∉ n) → ∀ key what title full,
        (tree.checkRelative (c.pathAt "root" p ++ ".propConfig." ++ key) what title full
            ⟨k, join "/" names⟩).isSome = true ↔
          p.length < k ∨ ∃ e, c.at? (p.take (p.length - k)) = some e ∧ e.descend names = none := by
  obtain ⟨-, rfl⟩ := (flatten_view_iff kind).mp hflat
  refine ⟨c.index kind, Model.ofNodes_offered hmodel fun e he => isContainer_of_mem_listing kind he, ?_⟩
  have hlisting : ∀ e ∈ c.listing kind, .char '\n' ∉ e.1 := fun e he => by
    have hkey := (Fields.mem_keys_ofPairs (c.listing kind) e.1).mpr (mem_map_of_mem he)
    obtain ⟨f, hf, hfe⟩ := mem_map.mp hkey
    rw [← hfe]
    exact hlines f hf
  intro p d hd k names hne hslash key what title full
  have hp : (c.at? p).isSome = true := by rw [hd]; rfl
  have hsplit : splitOn "/" (join "/" names) = names := splitOn_join_of_not_mem hne hslash
  rw [Option.isSome_iff_ne_none, ne_eq,
    checkRelative_eq_none_iff hnames.isPlain (noStrays_of_hasNames hnames hlisting) hp, Arrives, hnames.up_eq hp, hsplit]
  by_cases hk : k ≤ p.length
  · have hat : (c.at? (p.take (p.length - k))).isSome = true := by
      rw [← take_append_drop (p.length - k) p] at hp
      exact isSome_at?_of_append hp
    obtain ⟨e, he⟩ := Option.isSome_iff_exists.mp hat
    simp [hk, he, Nat.not_lt.mpr hk]
  · simp [hk, Nat.lt_of_not_le hk]

def simple (name : Text) (config : List (Text × Json)) (children : List Component) : Component :=
  mk ⟨[.name name], [.propConfig (.object config)], false, (by decide : (["meta", "propConfig"] : List Text).Nodup)⟩
    children

theorem hasNames_simple_iff {name : Text} {config : List (Text × Json)} {children : List Component} :
    (simple name config children).HasNames ↔ IsPlain name ∧ ∀ c ∈ children, c.HasNames := by
  have hname (s : Shape) (h : s.name? = some name) : (∃ n, s.name? = some n ∧ IsPlain n) ↔ IsPlain name := by simp [h]
  rw [simple, HasNames, forall_at?_mk_iff, hname _ rfl]
  rfl

/-- What the rule says about a reference of the component at a position: whether it complains. -/
def complains (c : Component) (p : List Nat) (r : ComponentTree.Relative) : Except Fault Bool := do
  let flat ← View.flatten (c.view .plain)
  let model ← Model.build flat
  let tree ← ComponentTree.ofNodes model.offered
  return (tree.checkRelative (c.pathAt "root" p ++ ".propConfig.text") "expression" "Expression" "" r).isSome

/-- A tree with a name that reads like a step of a path, and with properties that look like a component. -/
def garage : Component :=
  simple "children[0]" [] [simple "Car" [] [simple "Wheel" [] []],
    simple "Lamp" [("children", .arr [.object [("meta", .object [("name", .str "Boat")])]])] []]

theorem checkRelative_walks_garage :
    garage.HasNames ∧ ∃ flat model tree, View.flatten (garage.view .plain) = .ok flat ∧
      (∀ e ∈ flat, .char '\n' ∉ e.1) ∧ Model.build flat = .ok model ∧ ComponentTree.ofNodes model.offered = .ok tree ∧
      ∀ key what title full, (tree.checkRelative (garage.pathAt "root" [1] ++ ".propConfig." ++ key) what title full
          ⟨1, join "/" ["Car", "Wheel"]⟩).isSome = false ∧
        (tree.checkRelative (garage.pathAt "root" [1] ++ ".propConfig." ++ key) what title full
          ⟨1, join "/" ["Boat"]⟩).isSome = true ∧
        (tree.checkRelative (garage.pathAt "root" [1] ++ ".propConfig." ++ key) what title full
          ⟨2, join "/" ["Car"]⟩).isSome = true := by
  have hnames : garage.HasNames := by
    simp only [garage, hasNames_simple_iff, forall_mem_cons, not_mem_nil, false_imp_iff, implies_true, and_true]
    decide
  obtain ⟨flat, hflat, hlines, model, hmodel, -⟩ : ∃ flat, View.flatten (garage.view .plain) = .ok flat ∧
      (∀ e ∈ flat, .char '\n' ∉ e.1) ∧ ∃ model, Model.build flat = .ok model ∧ True := by decide +kernel
  obtain ⟨tree, htree, hwalk⟩ := checkRelative_walks hnames hflat hlines hmodel
  refine ⟨hnames, flat, model, tree, hflat, hlines, hmodel, htree, fun key what title full => ⟨?_, ?_, ?_⟩⟩
  · have harrives : (garage.descend ["Car", "Wheel"]).isSome = true := by decide
    rw [Bool.eq_false_iff, ne_eq, hwalk [1] _ rfl 1 _ (by decide) (by decide)]
    rintro (h | ⟨e, he, h⟩)
    · simp at h
    · cases he
      rw [h] at harrives
      cases harrives
  · rw [hwalk [1] _ rfl 1 _ (by decide) (by decide)]
    exact .inr ⟨garage, rfl, by rw [← Option.isNone_iff_eq_none]; decide⟩
  · rw [hwalk [1] _ rfl 2 _ (by decide) (by decide)]
    exact .inl (by decide)

/-- A tree with a line feed in the name of a property. Behind it stands what looks like the path of a child. -/
def haunted : Component :=
  simple "House" [("x\nroot.House", .object [("children", .arr [.object [("meta", .object [("name", .str "Ghost")])]])])]
    [simple "Lamp" [] []]

/-- A tree with an empty name. -/
def nameless : Component := simple "House" [] [simple "" [] [], simple "Lamp" [] []]

/-- A value behind a line feed may be taken for a child, and a component with an empty name for one without a
parent. -/
theorem checkRelative_misled :
    (haunted.HasNames ∧ haunted.descend ["Ghost"] = none ∧ haunted.complains [0] ⟨1, "Ghost"⟩ = .ok false) ∧
      (nameless.descend ["Lamp"]).isSome = true ∧ nameless.complains [0] ⟨1, "Lamp"⟩ = .ok true := by
  have hnames : haunted.HasNames := by
    simp only [haunted, hasNames_simple_iff, forall_mem_cons, not_mem_nil, false_imp_iff, implies_true, and_true]
    decide
  exact ⟨⟨hnames, by rw [← Option.isNone_iff_eq_none]; decide, by decide +kernel⟩, by decide, by decide +kernel⟩

end Component

end ViewLint
