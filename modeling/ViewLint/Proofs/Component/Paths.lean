import ViewLint.Proofs.Component.Tree
import ViewLint.Rule.ComponentReference

/-!
# What is read off the path of a component

The parent of a component is found by cutting its path at the last step and at an index of children before
it, and the component that a binding belongs to by cutting the path at the configuration of its properties.

* `Component.IsPlain`: names that can be told apart from the rest of a path.
* **`Component.parentPath?_pathAt`**: the parent that is read off a path.
* **`Component.ownerOf_propConfig`**: the component that a binding belongs to.
-/

namespace ViewLint

open ComponentTree List Text

/-! ## The last steps of a path -/

theorem afterLast_eq_self {stop : CodePoint} {s : Text} (h : stop ∉ s) : afterLast [stop] s = s := by
  rw [afterLast, rcut?_eq_none h]
  rfl

theorem parentPath?_eq_some_iff {path parent : Text} :
    parentPath? path = some parent ↔ ∃ front name above index digits, rcut? "." path = some (front, name) ∧
      name ≠ [] ∧ rcut? ".children" front = some (above, index) ∧
      bracketed? index = some (digits, []) ∧ parent = afterLast "\n" above := by
  rw [parentPath?]
  cases hname : rcut? "." path with
  | none => simp
  | some t =>
    obtain ⟨front, name⟩ := t
    cases hindex : rcut? ".children" front with
    | none => cases name <;> simp [hindex]
    | some u =>
      obtain ⟨above, index⟩ := u
      cases name with
      | nil => simp
      | cons a name =>
        rcases hdigits : bracketed? index with _ | ⟨digits, _ | ⟨b, rest⟩⟩
        · simp [hindex, hdigits]
        · simpa [hindex, hdigits] using eq_comm
        · simp [hindex, hdigits]

/-- A path of two steps tells no parent. -/
theorem parentPath?_single {x b : Text} (hx : .char '.' ∉ x) (hb : .char '.' ∉ b) :
    parentPath? (x ++ "." ++ b) = none := by
  rw [Option.eq_none_iff_forall_not_mem]
  intro parent h
  obtain ⟨front, name, above, index, digits, hcut, -, hchildren, -⟩ := parentPath?_eq_some_iff.mp h
  have hlast : rcut? "." (x ++ "." ++ b) = some (x, b) := by
    rw [append_assoc]
    exact rcut?_stop (.char '.') x hb
  cases hcut.symm.trans hlast
  have hnone : rcut? ".children" x = none := rcut?_eq_none hx
  cases hchildren.symm.trans hnone

/-- What a path looks like that tells a parent. -/
theorem of_parentPath? {path parent : Text} (hline : .char '\n' ∉ path) (h : parentPath? path = some parent) :
    ∃ digits name, path = parent ++ (".children[" ++ digits ++ "]." ++ name) ∧ .char '.' ∉ digits ∧
      .char '.' ∉ name := by
  obtain ⟨front, name, above, index, digits, hcut, -, hchildren, hdigits, rfl⟩ := parentPath?_eq_some_iff.mp h
  have hpath := rcut?_eq_some hcut
  have hfront := rcut?_eq_some hchildren
  obtain ⟨rfl, -, hall⟩ := bracketed?_eq_some_iff.mp hdigits
  have habove : .char '\n' ∉ above := fun hmem => hline (by rw [hpath, hfront]; simp [hmem])
  refine ⟨digits, name, ?_, fun hmem => absurd (hall _ hmem) (by decide), fun hmem => ?_⟩
  · have hself : afterLast "\n" above = above := afterLast_eq_self habove
    rw [hself, hpath, hfront]
    simp [ofString]
  · -- The path was cut at its last point.
    obtain ⟨u, v, rfl⟩ := append_of_mem hmem
    have hlength := length_le_of_rcut? (x := front ++ "." ++ u) (y := v) hcut (by rw [hpath]; simp [ofString])
    have hpoint : ("." : Text).length = 1 := rfl
    simp only [length_append] at hlength
    omega

/-! ## Plain names -/

namespace Component

/-- A name that can be told apart from the rest of a path. -/
structure IsPlain (name : Text) : Prop where
  ne_nil : name ≠ []
  no_point : .char '.' ∉ name
  no_line : .char '\n' ∉ name
  ne_propConfig : name ≠ "propConfig"

instance (name : Text) : Decidable (IsPlain name) :=
  decidable_of_iff (name ≠ [] ∧ .char '.' ∉ name ∧ .char '\n' ∉ name ∧ name ≠ "propConfig")
    ⟨fun ⟨hnil, hpoint, hline, hprop⟩ => ⟨hnil, hpoint, hline, hprop⟩,
      fun h => ⟨h.ne_nil, h.no_point, h.no_line, h.ne_propConfig⟩⟩

def childStep (i : Nat) : Text := "children" ++ ("[" ++ natText i ++ "]")

theorem item_eq (t : Text) (i : Nat) : View.item (t ++ ".children") i = t ++ "." ++ childStep i := by
  simp [View.item, childStep, ofString]

theorem parentPath?_childStep {x b : Text} (hx : .char '\n' ∉ x) (i : Nat) (hb : .char '.' ∉ b) (hne : b ≠ []) :
    parentPath? (x ++ "." ++ childStep i ++ "." ++ b) = some x := by
  have hcut : rcut? "." (x ++ "." ++ childStep i ++ "." ++ b) = some (x ++ "." ++ childStep i, b) := by
    rw [append_assoc _ _ b]
    exact rcut?_stop (.char '.') _ hb
  have hchildren : rcut? ".children" (x ++ "." ++ childStep i) = some (x, "[" ++ natText i ++ "]") := by
    have hindex : .char '.' ∉ ("[" ++ natText i ++ "]" : Text) := by
      simpa [ofString] using not_mem_natText '.' rfl i
    have h := rcut?_append_cons (by decide : .char '.' ∉ ("children" : Text)) hindex x
    rw [append_assoc] at h ⊢
    exact h
  have hdigits : bracketed? ("[" ++ natText i ++ "]") = some (natText i, []) :=
    bracketed?_eq_some_iff.mpr ⟨rfl, natText_ne_nil i, fun _ => isDigit_of_mem_natText⟩
  exact parentPath?_eq_some_iff.mpr ⟨_, b, x, _, natText i, hcut, hne, hchildren, hdigits, (afterLast_eq_self hx).symm⟩

theorem pathAt_concat {c : Component} {p : List Nat} {i : Nat} (h : (c.at? (p ++ [i])).isSome = true)
    (hname : c.nameAt (p ++ [i]) ≠ []) (base : Text) :
    c.pathAt base (p ++ [i]) = c.pathAt base p ++ "." ++ childStep i ++ "." ++ c.nameAt (p ++ [i]) := by
  obtain ⟨e, he⟩ := Option.isSome_iff_exists.mp h
  obtain ⟨d, hd, hi⟩ := at?_concat_eq_some_iff.mp he
  rw [pathAt_of_nameAt_ne_nil hname, spotAt_concat hd (List.getElem?_eq_some_iff.mp hi).1, item_eq]

section Plain

variable {c : Component} (hplain : ∀ n ∈ c.names, IsPlain n)

include hplain

theorem line_not_mem_pathAt (p : List Nat) : .char '\n' ∉ c.pathAt "root" p := by
  have hroot : .char '\n' ∉ ("root" : Text) := by decide
  refine (pathAt_induction (P := fun t => .char '\n' ∉ t) ?_ ?_ hroot p).2
  · intro t n hn _ ht
    simpa [ht, ofString] using (hplain n hn).no_line
  · intro t i ht
    rw [item_eq]
    simpa [childStep, ht, ofString] using not_mem_natText '\n' rfl i

theorem parentPath?_pathAt {q : List Nat} (hq : (c.at? q).isSome = true) (hname : c.nameAt q ≠ []) :
    parentPath? (c.pathAt "root" q) = if q = [] then none else some (c.pathAt "root" q.dropLast) := by
  have hpoint : .char '.' ∉ c.nameAt q := (hplain _ (nameAt_mem_names hname)).no_point
  rcases eq_nil_or_concat' q with rfl | ⟨p, i, rfl⟩
  · rw [pathAt_of_nameAt_ne_nil hname, if_pos rfl]
    exact parentPath?_single (by decide : .char '.' ∉ ("root" : Text)) hpoint
  · rw [pathAt_concat hq hname, if_neg (by simp), dropLast_concat]
    exact parentPath?_childStep (line_not_mem_pathAt hplain p) i hpoint hname

omit hplain in
theorem parentPath?_ne_of_isOwn (hnamed : ∀ p, (c.at? p).isSome = true → c.nameAt p ≠ []) {p q : List Nat} {s : Text}
    (hp : (c.at? p).isSome = true) (hq : (c.at? q).isSome = true) (hs : IsOwn s) (hpoint : .char '.' ∈ s)
    (hline : .char '\n' ∉ c.pathAt "root" q ++ s) :
    parentPath? (c.pathAt "root" q ++ s) ≠ some (c.pathAt "root" p) := by
  intro h
  obtain ⟨digits, name, hpath, hdigits, hname⟩ := of_parentPath? hline h
  obtain ⟨r, rfl⟩ := prefix_of_pathAt_append hp hq hs hpath
  cases r with
  | nil =>
    rw [append_nil, append_cancel_left_eq] at hpath
    exact hs ⟨digits ++ "]." ++ name, by simp [hpath]⟩
  | cons j r =>
    -- The child on the way has a step and a name, so that there are too many points for one child.
    have hchild : p ++ j :: r = p ++ [j] ++ r := by simp
    rw [hchild] at hq hpath
    have hj := isSome_at?_of_append hq
    obtain ⟨u, hu⟩ := exists_pathAt_append hq "root"
    rw [hu, pathAt_concat hj (hnamed _ hj)] at hpath
    simp only [append_assoc, append_cancel_left_eq] at hpath
    have hcount := congrArg (count (.char '.')) hpath
    have hpoints : 0 < s.count (.char '.') := count_pos_iff.mpr hpoint
    simp [ofString, count_eq_zero.mpr hdigits, count_eq_zero.mpr hname] at hcount
    omega

/-! ## The properties of a component -/

/-- No cut at the properties of a component begins inside a text, whatever step follows. -/
def Uncut (t : Text) : Prop :=
  ∀ s, cut? ".propConfig." (t ++ "." ++ s) = (cut? ".propConfig." ("." ++ s)).map fun u => (t ++ u.1, u.2)

omit hplain in
omit hplain in
theorem Uncut.append {t step : Text} (ht : Uncut t) (hpoint : .char '.' ∉ step) (hne : step ≠ "propConfig") :
    Uncut (t ++ "." ++ step) := by
  intro s
  have hno : ¬ (".propConfig." : Text).isPrefixOf (.char '.' :: (step ++ .char '.' :: s)) = true := by
    rw [ isPrefixOf_iff_prefix]
    rintro ⟨r, hr⟩
    have hstart : ("propConfig" : Text) ++ .char '.' :: r = step ++ .char '.' :: s := (cons.inj hr).2
    exact hne (append_cons_inj (by decide) hpoint hstart).1.symm
  have hcut : cut? ".propConfig." ("." ++ (step ++ ("." ++ s))) =
      (cut? ".propConfig." ("." ++ s)).map fun u => ("." ++ step ++ u.1, u.2) := by
    have hstep : cut? ".propConfig." (step ++ ("." ++ s)) =
        (cut? ".propConfig." ("." ++ s)).map fun u => (step ++ u.1, u.2) := cut?_append_left hpoint _
    change cut? ".propConfig." (.char '.' :: (step ++ .char '.' :: s)) = _
    rw [cut?, if_neg hno]
    change (cut? ".propConfig." (step ++ ("." ++ s))).map _ = _
    rw [hstep, Option.map_map]
    rfl
  have h := ht (step ++ ("." ++ s))
  rw [hcut, Option.map_map] at h
  simpa [Function.comp_def] using h

theorem uncut_pathAt (p : List Nat) : Uncut (c.pathAt "root" p) := by
  have hroot : Uncut "root" := fun s => by
    rw [append_assoc]
    exact cut?_append_left (by decide) _
  refine (pathAt_induction (P := Uncut) ?_ ?_ hroot p).2
  · intro t n hn _ ht
    exact ht.append (hplain n hn).no_point (hplain n hn).ne_propConfig
  · intro t i ht
    rw [item_eq]
    have hpoint := not_mem_natText '.' rfl i
    exact ht.append (by simpa [childStep, ofString] using hpoint) (by simp [childStep, ofString])

/-- What stands before the properties of a component is its path. -/
theorem cut?_propConfig (p : List Nat) (key : Text) :
    cut? ".propConfig." (c.pathAt "root" p ++ ".propConfig." ++ key) = some (c.pathAt "root" p, key) := by
  have h := uncut_pathAt hplain p ("propConfig." ++ key)
  rw [append_assoc] at h ⊢
  exact h.trans (by simp [cut?, ofString])

theorem ownerOf_propConfig (t : ComponentTree) (p : List Nat) (key : Text) :
    t.ownerOf (c.pathAt "root" p ++ ".propConfig." ++ key) = c.pathAt "root" p := by
  have hcut := cut?_propConfig hplain p key
  have hfind : ownerMarkers.find? (holds (c.pathAt "root" p ++ ".propConfig." ++ key)) =
      some (".propConfig." : Text) := find?_cons_of_pos (by rw [holds, hcut]; rfl)
  rw [ownerOf, hfind]
  simp only [before, hcut]
  rfl

end Plain

end Component

end ViewLint
