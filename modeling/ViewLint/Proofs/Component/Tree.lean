import Mathlib.Data.List.Nodup
import ViewLint.Proofs.Cutting
import ViewLint.View.Flatten
import ViewLint.View.Path

/-!
# Trees of components

A component has a name, a type, a configuration of its properties and a row of children. These members
stand in any order, and any of them may be missing. A position in a tree is a list of indices of children.

* `Component`: a tree of components, with the shape of each; `Component.view`: the view it is.
* `Component.at?`, `Component.pathAt`: the component at a position and its path.
* **`Component.eq_of_pathAt_append`**: a path tells the position, whatever the names are.
* **`Component.filter_gather`**: what is gathered at one position.
-/

namespace ViewLint

open List Option Function View

namespace Component

/-! ## The members of a component -/

/-- A member of a component besides its children. -/
inductive Member where
  | name (name : Text)
  | type (value : Json)
  | propConfig (value : Json)

namespace Member

def key : Member → Text
  | .name _ => "meta"
  | .type _ => "type"
  | .propConfig _ => "propConfig"

def name? : Member → Option Text
  | .name n => some n
  | _ => none

def toJson (kind : ObjectKind) : Member → Json
  | .name n => .obj kind [(.name "name", .str n)]
  | .type v | .propConfig v => v

def field (kind : ObjectKind) (m : Member) : Key × Json := (.name m.key, m.toJson kind)

end Member

/-- A component without its children. -/
structure Shape where
  /-- The members before the children. -/
  before : List Member
  /-- The members after the children. -/
  after : List Member
  /-- Whether an empty row of children is written out. -/
  hasRow : Bool := false
  distinct : ((before ++ after).map Member.key).Nodup

namespace Shape

def members (s : Shape) : List Member := s.before ++ s.after

def name? (s : Shape) : Option Text := s.members.findSome? Member.name?

/-- What a component adds to a path: its name, unless that is empty. -/
def step (s : Shape) : Text :=
  match s.name?.getD [] with
  | [] => []
  | name => "." ++ name

/-- The fields of a component whose children are given as values. -/
def fields (kind : ObjectKind) (s : Shape) (items : List Json) : List (Key × Json) :=
  s.before.map (Member.field kind) ++ (if s.hasRow || !items.isEmpty then [(.name "children", .arr items)] else [])
    ++ s.after.map (Member.field kind)

end Shape

end Component

/-- A tree of components. -/
inductive Component where
  | mk (shape : Component.Shape) (children : List Component)

namespace Component

variable {c d : Component} {i : Nat} {p q : List Nat} {base s : Text}

/-- The component at the root, without its children. -/
def shape : Component → Shape
  | mk shape _ => shape

/-- The trees below the root. -/
def children : Component → List Component
  | mk _ children => children

@[simp] theorem shape_mk (s : Shape) (cs : List Component) : (mk s cs).shape = s := rfl

@[simp] theorem children_mk (s : Shape) (cs : List Component) : (mk s cs).children = cs := rfl

/-- A property of trees holds if it passes from the children to the parent. -/
theorem induction {P : Component → Prop} (h : ∀ s cs, (∀ c ∈ cs, P c) → P (mk s cs)) : ∀ c, P c
  | mk s cs => h s cs fun c _ => induction h c

mutual

def toJson (kind : ObjectKind) : Component → Json
  | mk shape children => .obj kind (shape.fields kind (items kind children))

def items (kind : ObjectKind) : List Component → List Json
  | [] => []
  | c :: cs => toJson kind c :: items kind cs

end

def view (kind : ObjectKind) (c : Component) : Json := .obj kind [(.name "root", c.toJson kind)]

def at? (c : Component) : List Nat → Option Component
  | [] => some c
  | i :: p => c.children[i]?.bind fun d => d.at? p

/-- The path in front of the name of the component at a position, below a path. -/
def spotAt (c : Component) (base : Text) : List Nat → Text
  | [] => base
  | i :: p =>
    match c.children[i]? with
    | some d => d.spotAt (item (base ++ c.shape.step ++ ".children") i) p
    | none => base

def pathAt (c : Component) (base : Text) (p : List Nat) : Text :=
  c.spotAt base p ++ ((c.at? p).map (·.shape.step)).getD []

section Gather

variable {α : Type} (first last : Shape → List α)

mutual

/-- What the components of a tree hold, in document order, with their positions: each gives something
before its children, and something after them. -/
def gather : Component → List (List Nat × α)
  | mk shape children =>
    (first shape).map ([], ·) ++ gatherRow 0 children ++ (last shape).map ([], ·)

/-- What the components of a row hold, counted from an index. -/
def gatherRow : Nat → List Component → List (List Nat × α)
  | _, [] => []
  | i, c :: cs => (gather c).map (fun x => (i :: x.1, x.2)) ++ gatherRow (i + 1) cs

end

end Gather

/-! ## Positions -/

@[simp] theorem at?_nil (c : Component) : c.at? [] = some c := rfl

theorem at?_cons_eq_some_iff : c.at? (i :: p) = some d ↔ ∃ e, c.children[i]? = some e ∧ e.at? p = some d := by
  rw [at?, bind_eq_some_iff]

theorem of_isSome_at?_cons (h : (c.at? (i :: p)).isSome = true) :
    ∃ e, c.children[i]? = some e ∧ (e.at? p).isSome = true := by
  obtain ⟨d, hd⟩ := isSome_iff_exists.mp h
  obtain ⟨e, he, hd⟩ := at?_cons_eq_some_iff.mp hd
  exact ⟨e, he, isSome_iff_exists.mpr ⟨d, hd⟩⟩

theorem at?_append (c : Component) (p q : List Nat) : c.at? (p ++ q) = (c.at? p).bind (·.at? q) := by
  induction p generalizing c with
  | nil => rfl
  | cons i p ih =>
    rw [cons_append, at?, at?]
    cases c.children[i]? with
    | none => rfl
    | some d => exact ih d

theorem at?_concat_eq_some_iff : c.at? (p ++ [i]) = some d ↔ ∃ e, c.at? p = some e ∧ e.children[i]? = some d := by
  rw [at?_append, bind_eq_some_iff]
  simp [at?]

theorem isSome_at?_of_append (h : (c.at? (p ++ q)).isSome = true) : (c.at? p).isSome = true := by
  rw [at?_append] at h
  exact isSome_of_isSome_bind h

/-- What holds of every component of a tree holds of the root and of every component below it. -/
theorem forall_at?_mk_iff {P : Component → Prop} {s : Shape} {cs : List Component} :
    (∀ p d, (mk s cs).at? p = some d → P d) ↔ P (mk s cs) ∧ ∀ c ∈ cs, ∀ p d, c.at? p = some d → P d := by
  constructor
  · intro h
    refine ⟨h [] (mk s cs) rfl, fun c hc p d hd => ?_⟩
    obtain ⟨i, hi⟩ := mem_iff_getElem?.mp hc
    exact h (i :: p) d (at?_cons_eq_some_iff.mpr ⟨c, hi, hd⟩)
  · rintro ⟨hs, hcs⟩ p d hd
    cases p with
    | nil => cases hd; exact hs
    | cons i p =>
      obtain ⟨c, hc, hd⟩ := at?_cons_eq_some_iff.mp hd
      exact hcs c (mem_of_getElem? hc) p d hd

theorem spotAt_cons (h : c.children[i]? = some d) (base : Text) (p : List Nat) :
    c.spotAt base (i :: p) = d.spotAt (item (base ++ c.shape.step ++ ".children") i) p := by
  rw [spotAt, h]

theorem pathAt_cons (h : c.children[i]? = some d) (base : Text) (p : List Nat) :
    c.pathAt base (i :: p) = d.pathAt (item (c.pathAt base [] ++ ".children") i) p := by
  rw [pathAt, spotAt_cons h, at?, h]
  rfl

theorem spotAt_concat (h : c.at? p = some d) (hi : i < d.children.length) (base : Text) :
    c.spotAt base (p ++ [i]) = item (c.pathAt base p ++ ".children") i := by
  induction p generalizing c base with
  | nil =>
    cases h
    rw [nil_append, spotAt_cons (getElem?_eq_getElem hi)]
    rfl
  | cons j p ih =>
    obtain ⟨e, he, h⟩ := at?_cons_eq_some_iff.mp h
    rw [cons_append, spotAt_cons he, pathAt_cons he, ih h]
    rfl

theorem exists_spotAt_eq_append (c : Component) (base : Text) (p : List Nat) : ∃ r, c.spotAt base p = base ++ r := by
  induction p generalizing c base with
  | nil => exact ⟨[], (append_nil base).symm⟩
  | cons i p ih =>
    cases hi : c.children[i]? with
    | none => exact ⟨[], by rw [spotAt, hi, append_nil]⟩
    | some d =>
      obtain ⟨r, hr⟩ := ih d (item (base ++ c.shape.step ++ ".children") i)
      rw [spotAt_cons hi, hr]
      simp only [item, append_assoc]
      exact ⟨_, rfl⟩

theorem exists_pathAt_eq_append (c : Component) (base : Text) (p : List Nat) : ∃ r, c.pathAt base p = base ++ r := by
  obtain ⟨r, hr⟩ := exists_spotAt_eq_append c base p
  rw [pathAt, hr, append_assoc]
  exact ⟨_, rfl⟩

theorem exists_pathAt_cons (h : (c.at? (i :: p)).isSome = true) (base : Text) :
    ∃ r, c.pathAt base (i :: p) = item (c.pathAt base [] ++ ".children") i ++ r := by
  obtain ⟨e, he, -⟩ := of_isSome_at?_cons h
  rw [pathAt_cons he]
  exact exists_pathAt_eq_append e _ p

theorem exists_pathAt_append {r : List Nat} (h : (c.at? (p ++ r)).isSome = true) (base : Text) :
    ∃ u, c.pathAt base (p ++ r) = c.pathAt base p ++ u := by
  induction p generalizing c base with
  | nil =>
    cases r with
    | nil => exact ⟨[], (append_nil _).symm⟩
    | cons j r =>
      obtain ⟨u, hu⟩ := exists_pathAt_cons h base
      rw [nil_append, hu]
      simp only [item, append_assoc]
      exact ⟨_, rfl⟩
  | cons i p ih =>
    obtain ⟨e, he, h⟩ := of_isSome_at?_cons h
    rw [cons_append, pathAt_cons he, pathAt_cons he]
    exact ih h _

/-- The name of the component at a position; the empty text where there is none. -/
def nameAt (c : Component) (p : List Nat) : Text := ((c.at? p).bind (·.shape.name?)).getD []

theorem pathAt_of_nameAt_eq_nil (h : c.nameAt p = []) (base : Text) : c.pathAt base p = c.spotAt base p := by
  rw [nameAt] at h
  rw [pathAt]
  cases hp : c.at? p with
  | none => exact append_nil _
  | some d =>
    have hname : d.shape.name?.getD [] = [] := by simpa [hp] using h
    simp [Shape.step, hname]

theorem pathAt_of_nameAt_ne_nil (h : c.nameAt p ≠ []) (base : Text) :
    c.pathAt base p = c.spotAt base p ++ "." ++ c.nameAt p := by
  rw [nameAt] at h
  rw [pathAt, nameAt]
  cases hp : c.at? p with
  | none => simp [hp] at h
  | some d =>
    have hname : d.shape.name?.getD [] ≠ [] := by simpa [hp] using h
    rw [append_assoc]
    refine congrArg _ ?_
    change d.shape.step = "." ++ d.shape.name?.getD []
    rw [Shape.step]
    split
    · next h => exact absurd h hname
    · rfl

/-! ## What a path tells -/

/-- A text that is not the beginning of what follows a component on the path of a child. -/
def IsOwn (s : Text) : Prop := ¬ (".children[" : Text) <+: s

theorem isOwn_nil : IsOwn [] := by simp [IsOwn, Text.ofString]

theorem item_append_inj {r : Text} {j : Nat} (h : item base i ++ r = item base j ++ s) : i = j ∧ r = s := by
  have hstop := not_mem_natText ']' rfl
  simp only [item, append_assoc] at h
  obtain ⟨hij, rfl⟩ := Text.append_cons_inj (hstop i) (hstop j) (append_cancel_left (append_cancel_left h))
  exact ⟨natText_inj hij, rfl⟩

/-- What stands below a child is not the component's own. -/
theorem not_isOwn_of_pathAt_cons {t : Text}
    (hp : (c.at? (i :: p)).isSome = true) (h : c.pathAt base [] ++ s = c.pathAt base (i :: p) ++ t) :
    ¬ IsOwn s := by
  obtain ⟨r, hr⟩ := exists_pathAt_cons hp base
  rw [hr] at h
  simp only [item, append_assoc] at h
  exact not_not_intro ⟨_, (append_cancel_left h).symm⟩

theorem prefix_of_pathAt_append {t : Text} (hp : (c.at? p).isSome = true) (hq : (c.at? q).isSome = true) (hs : IsOwn s)
    (h : c.pathAt base q ++ s = c.pathAt base p ++ t) : p <+: q := by
  induction p generalizing c base q with
  | nil => exact nil_prefix
  | cons i p ih =>
    cases q with
    | nil => exact absurd hs (not_isOwn_of_pathAt_cons hp h)
    | cons j q =>
      obtain rfl : j = i := by
        obtain ⟨r, hr⟩ := exists_pathAt_cons hp base
        obtain ⟨r', hr'⟩ := exists_pathAt_cons hq base
        rw [hr, hr', append_assoc, append_assoc] at h
        exact (item_append_inj h).1
      obtain ⟨e, he, hp⟩ := of_isSome_at?_cons hp
      obtain ⟨e', he', hq⟩ := of_isSome_at?_cons hq
      obtain rfl : e = e' := some.inj (he.symm.trans he')
      rw [pathAt_cons he, pathAt_cons he] at h
      exact (prefix_cons_inj j).mpr (ih hp hq h)

theorem eq_of_pathAt_append {t : Text}
    (hp : (c.at? p).isSome = true) (hq : (c.at? q).isSome = true) (hs : IsOwn s) (ht : IsOwn t)
    (h : c.pathAt base p ++ s = c.pathAt base q ++ t) : p = q ∧ s = t := by
  have hpq : p <+: q := prefix_of_pathAt_append hp hq ht h.symm
  have hqp : q <+: p := prefix_of_pathAt_append hq hp hs h
  obtain rfl := hpq.eq_of_length_le hqp.length_le
  exact ⟨rfl, append_cancel_left h⟩

theorem pathAt_inj (hp : (c.at? p).isSome = true)
    (hq : (c.at? q).isSome = true) (h : c.pathAt base p = c.pathAt base q) : p = q :=
  (eq_of_pathAt_append hp hq isOwn_nil isOwn_nil (congrArg (· ++ []) h)).1

/-! ## What is gathered -/

section Gather

variable {c : Component} {α : Type} {first last : Shape → List α}

theorem gatherRow_eq (k : Nat) (cs : List Component) : gatherRow first last k cs =
      (cs.zipIdx k).flatMap fun e => (gather first last e.1).map fun x => (e.2 :: x.1, x.2) := by
  induction cs generalizing k with
  | nil => rfl
  | cons c cs ih => rw [gatherRow, ih, zipIdx_cons, flatMap_cons]

theorem exists_of_mem_gatherRow {k : Nat} {cs : List Component} {x : List Nat × α}
    (h : x ∈ gatherRow first last k cs) : ∃ j p, k ≤ j ∧ x.1 = j :: p := by
  rw [gatherRow_eq, mem_flatMap] at h
  obtain ⟨e, he, h⟩ := h
  obtain ⟨y, -, rfl⟩ := List.mem_map.mp h
  exact ⟨e.2, y.1, (mem_zipIdx he).1, rfl⟩

/-- What a row gives below one of its indices comes from the component there. -/
theorem filter_gatherRow {test inner : List Nat → Bool} {k : Nat}
    (h : ∀ j q, test (j :: q) = (j == k + i && inner q)) (cs : List Component) :
    (gatherRow first last k cs).filter (fun x => test x.1) =
      ((cs[i]?.map fun c => (gather first last c).filter fun x => inner x.1).getD []).map
        fun x => ((k + i) :: x.1, x.2) := by
  induction cs generalizing k i with
  | nil => rfl
  | cons c cs ih =>
    rw [gatherRow, List.filter_append, List.filter_map]
    cases i with
    | zero =>
      have hrest : (gatherRow first last (k + 1) cs).filter (fun x => test x.1) = [] := by
        rw [filter_eq_nil_iff]
        intro x hx
        obtain ⟨j, q, hj, hxj⟩ := exists_of_mem_gatherRow hx
        have hne : j ≠ k := by omega
        simp [hxj, h, hne]
      rw [hrest, append_nil]
      simp [comp_def, h]
    | succ i =>
      have hown : (gather first last c).filter
          ((fun x : List Nat × α => test x.1) ∘ fun x => (k :: x.1, x.2)) = [] := by
        rw [filter_eq_nil_iff]
        intro x _
        simp [h]
      have hk : k + (i + 1) = k + 1 + i := by omega
      rw [hown, map_nil, nil_append, getElem?_cons_succ, hk]
      exact ih fun j q => hk ▸ h j q

/-- What is gathered below a position is what the tree there gives. -/
theorem filter_gather_below (c : Component) (p : List Nat) :
    (gather first last c).filter (fun x => p.isPrefixOf x.1) =
      ((c.at? p).elim [] (gather first last)).map fun x => (p ++ x.1, x.2) := by
  induction p generalizing c with
  | nil => simp
  | cons i p ih =>
    obtain ⟨s, cs⟩ := c
    have htest : ∀ j q, (i :: p).isPrefixOf (j :: q) = (j == 0 + i && p.isPrefixOf q) := fun j q => by
      rw [isPrefixOf, Nat.zero_add, Bool.beq_comm]
    rw [gather, List.filter_append, List.filter_append, filter_gatherRow htest, List.filter_map, List.filter_map, at?]
    cases hi : cs[i]? with
    | none => simp [comp_def, hi]
    | some d => simp [comp_def, hi, ih d]

theorem filter_gather (c : Component) (p : List Nat) : (gather first last c).filter (·.1 == p) =
      ((c.at? p).elim [] fun d => first d.shape ++ last d.shape).map (p, ·) := by
  have hhere (d : Component) : (gather first last d).filter (·.1 == []) =
      (first d.shape ++ last d.shape).map ([], ·) := by
    obtain ⟨s, cs⟩ := d
    have hrow : (gatherRow first last 0 cs).filter (·.1 == []) = [] := by
      rw [filter_eq_nil_iff]
      intro x hx
      obtain ⟨j, q, -, hxj⟩ := exists_of_mem_gatherRow hx
      simp [hxj]
    rw [gather, List.filter_append, List.filter_append, hrow, List.filter_map, List.filter_map]
    simp [Function.comp_def]
  have hsplit : (gather first last c).filter (·.1 == p) =
      ((gather first last c).filter fun x => p.isPrefixOf x.1).filter (·.1 == p) := by
    rw [List.filter_filter]
    refine filter_congr fun x _ => ?_
    by_cases hx : x.1 = p <;> simp [hx]
  rw [hsplit, filter_gather_below, List.filter_map]
  cases c.at? p with
  | none => rfl
  | some d =>
    have htest : ((fun x : List Nat × α => x.1 == p) ∘ fun x : List Nat × α => (p ++ x.1, x.2)) = (·.1 == []) := by
      funext x
      rw [Function.comp_apply, Bool.eq_iff_iff]
      simp
    simp only [Option.elim_some, htest, hhere, List.map_map]
    simp [Function.comp_def]

def isChildOf (p q : List Nat) : Bool := q != [] && q.dropLast == p

theorem isChildOf_concat (p q : List Nat) (i : Nat) : isChildOf p (q ++ [i]) = (q == p) := by
  simp [isChildOf]

/-- **What is gathered at the children of a position**, in the order of the children. -/
theorem filter_gather_children (hd : c.at? p = some d) :
    (gather first last c).filter (fun x => isChildOf p x.1) =
      d.children.zipIdx.flatMap fun e => (first e.1.shape ++ last e.1.shape).map (p ++ [e.2], ·) := by
  have hrow (cs : List Component) : (gatherRow first last 0 cs).filter (fun x => isChildOf [] x.1) =
      cs.zipIdx.flatMap fun e => (first e.1.shape ++ last e.1.shape).map ([e.2], ·) := by
    rw [gatherRow_eq, filter_flatMap]
    refine flatMap_congr fun e _ => ?_
    have htest : ((fun x : List Nat × α => isChildOf [] x.1) ∘ fun x : List Nat × α => (e.2 :: x.1, x.2)) =
        (·.1 == []) := by
      funext x
      cases hx : x.1 with
      | nil | cons i q => simp [isChildOf, hx]
    rw [List.filter_map, htest, filter_gather]
    simp [Function.comp_def]
  have hsplit : (gather first last c).filter (fun x => isChildOf p x.1) =
      ((gather first last c).filter fun x => p.isPrefixOf x.1).filter fun x => isChildOf p x.1 := by
    rw [List.filter_filter]
    refine filter_congr fun x _ => ?_
    rcases eq_nil_or_concat' x.1 with hx | ⟨q, i, hx⟩
    · simp [hx, isChildOf]
    · rw [hx, isChildOf_concat]
      by_cases hq : q = p <;> simp [hq]
  have htest : ((fun x : List Nat × α => isChildOf p x.1) ∘ fun x : List Nat × α => (p ++ x.1, x.2)) =
      fun x : List Nat × α => isChildOf [] x.1 := by
    funext x
    rcases eq_nil_or_concat' x.1 with hx | ⟨q, i, hx⟩
    · rcases eq_nil_or_concat' p with hp | ⟨r, j, hp⟩ <;> simp [hx, hp, isChildOf]
    · rw [Function.comp_apply, hx, ← append_assoc, isChildOf_concat, isChildOf_concat, Bool.eq_iff_iff]
      simp
  rw [hsplit, filter_gather_below, hd, List.filter_map, htest]
  obtain ⟨s, cs⟩ := d
  rw [Option.elim_some, gather, List.filter_append, List.filter_append, hrow]
  simp [Function.comp_def, List.filter_map, isChildOf, List.map_flatMap]

theorem mem_gather_iff {x : α} :
    (p, x) ∈ gather first last c ↔ ∃ d, c.at? p = some d ∧ x ∈ first d.shape ++ last d.shape := by
  have h : (p, x) ∈ gather first last c ↔ (p, x) ∈ (gather first last c).filter (·.1 == p) := by simp
  rw [h, filter_gather]
  cases c.at? p <;> simp

/-- What is gathered is distinct if what each component gives is. -/
theorem nodup_map_gather {β : Type} (f : α → β)
    (h : ∀ p d, c.at? p = some d → ((first d.shape ++ last d.shape).map f).Nodup) :
    ((gather first last c).map fun x => (x.1, f x.2)).Nodup := by
  classical
  rw [nodup_iff_count_le_one]
  rintro ⟨p, y⟩
  have htest : ((fun z : List Nat × β => z.1 == p) ∘ fun x : List Nat × α => (x.1, f x.2)) = (·.1 == p) := rfl
  rw [← List.count_filter (p := fun z : List Nat × β => z.1 == p) (by simp), List.filter_map, htest, filter_gather]
  cases hp : c.at? p with
  | none => simp
  | some d =>
    have hmap : ((first d.shape ++ last d.shape).map (p, ·)).map (fun x => (x.1, f x.2)) =
        ((first d.shape ++ last d.shape).map f).map (p, ·) := by
      simp [Function.comp_def]
    rw [Option.elim_some, hmap]
    exact nodup_iff_count_le_one.mp ((h p d hp).map fun _ _ e => (Prod.mk.inj e).2) _

end Gather

/-- The names in a tree, the empty ones included. -/
def names (c : Component) : List Text := (gather (fun s => s.name?.toList) (fun _ => []) c).map (·.2)

theorem mem_names_iff {n : Text} : n ∈ c.names ↔ ∃ p d, c.at? p = some d ∧ d.shape.name? = some n := by
  simp only [names, List.mem_map, Prod.exists, exists_eq_right, mem_gather_iff, append_nil, Option.mem_toList]

theorem mem_names_of_mem_children (h : c.children[i]? = some d) {n : Text} (hn : n ∈ d.names) : n ∈ c.names := by
  obtain ⟨p, e, he, hname⟩ := mem_names_iff.mp hn
  exact mem_names_iff.mpr ⟨i :: p, e, at?_cons_eq_some_iff.mpr ⟨d, h, he⟩, hname⟩

theorem nameAt_mem_names (h : c.nameAt p ≠ []) : c.nameAt p ∈ c.names := by
  rw [nameAt] at h ⊢
  cases hp : c.at? p with
  | none => simp [hp] at h
  | some d =>
    cases hname : d.shape.name? with
    | none => simp [hp, hname] at h
    | some n => exact mem_names_iff.mpr ⟨p, d, hp, by simp [hname]⟩

/-- A property that every step of a path keeps holds of the path, up to the name and with it. -/
theorem pathAt_induction {P : Text → Prop} (name : ∀ t, ∀ n ∈ c.names, n ≠ [] → P t → P (t ++ "." ++ n))
    (child : ∀ t i, P t → P (item (t ++ ".children") i)) (hbase : P base) (p : List Nat) :
    P (c.spotAt base p) ∧ P (c.pathAt base p) := by
  have hpath {c : Component} (name : ∀ t, ∀ n ∈ c.names, n ≠ [] → P t → P (t ++ "." ++ n)) {base : Text}
      {p : List Nat} (hspot : P (c.spotAt base p)) : P (c.pathAt base p) := by
    by_cases h : c.nameAt p = []
    · rwa [pathAt_of_nameAt_eq_nil h]
    · rw [pathAt_of_nameAt_ne_nil h]
      exact name _ _ (nameAt_mem_names h) h hspot
  suffices hspot : P (c.spotAt base p) from ⟨hspot, hpath name hspot⟩
  induction p generalizing c base with
  | nil => exact hbase
  | cons i p ih =>
    cases hi : c.children[i]? with
    | none => rwa [spotAt, hi]
    | some d =>
      rw [spotAt_cons hi]
      exact ih (fun t n hn => name t n (mem_names_of_mem_children hi hn)) (child _ i (hpath (p := []) name hbase))

end Component

end ViewLint
