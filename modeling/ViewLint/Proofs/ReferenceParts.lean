import ViewLint.Proofs.Fields
import ViewLint.Proofs.Occurrences
import ViewLint.Proofs.Relative

/-!
# The component of a reference

A relative reference names a component and then a property of it. The property starts at a marker, and the four
markers are looked for one after the other in the whole reference, so a marker inside the property counts before
the one in front of it if it comes earlier in this order.

* `ComponentReference.RefersTo`: the bindings that are one relative reference.
* **`ComponentTree.componentPart_eq_iff`**, **`ComponentReference.reference_to_component_iff`**: when the component
  is what stands before the property, and that a reference to a component is then no cause for complaint.
-/

namespace ViewLint

open List Text

variable {r t marker : Text}

namespace ComponentTree

/-! ## Markers -/

/-- A marker is a word between two dots. -/
theorem exists_of_mem_propertyMarkers (h : marker ∈ propertyMarkers) :
    ∃ w, marker = .char '.' :: (w ++ [.char '.']) ∧ .char '.' ∉ w := by
  simp only [propertyMarkers, mem_cons, not_mem_nil, or_false] at h
  obtain rfl | rfl | rfl | rfl := h
  · exact ⟨"props", rfl, by decide⟩
  · exact ⟨"position", rfl, by decide⟩
  · exact ⟨"meta", rfl, by decide⟩
  · exact ⟨"custom", rfl, by decide⟩

theorem find?_eq_some_iff_takeWhile {p : Text → Bool} {markers : List Text} (hmem : marker ∈ markers)
    (hp : p marker = true) : markers.find? p = some marker ↔
      ∀ earlier ∈ markers.takeWhile (· != marker), p earlier = false := by
  induction markers with
  | nil => cases hmem
  | cons m markers ih =>
    by_cases hm : m = marker
    · subst hm
      simp [hp]
    · have hlater := ih ((mem_cons.mp hmem).resolve_left (Ne.symm hm))
      cases hfound : p m <;> simp [hfound, hm, hlater]

section Marker

variable (hr : .char '.' ∉ r) (hmarker : marker ∈ propertyMarkers)

include hr hmarker

/-- **The markers of a reference**: the one behind the component, and those of the property. -/
theorem holds_marker_iff {other : Text} (hother : other ∈ propertyMarkers) :
    holds (r ++ marker ++ t) other = true ↔ other = marker ∨ other <:+: .char '.' :: t := by
  obtain ⟨w, rfl, hw⟩ := exists_of_mem_propertyMarkers hmarker
  obtain ⟨v, rfl, hv⟩ := exists_of_mem_propertyMarkers hother
  have htext : r ++ .char '.' :: (w ++ [.char '.']) ++ t = r ++ .char '.' :: (w ++ .char '.' :: t) := by simp
  have hfirst (p : Prop) : ¬ (.char '.' :: (v ++ [.char '.']) <:+: r ∨ .char '.' :: v <:+ r ∧ p) := by
    rintro (h | ⟨h, -⟩) <;> exact hr (h.subset mem_cons_self)
  have hsecond : ¬ .char '.' :: (v ++ [.char '.']) <:+: .char '.' :: w := by
    rw [infix_stop_iff hw]
    exact fun h => hw (h.subset (by simp))
  have hsame : .char '.' :: v <:+ .char '.' :: w ↔ v = w := suffix_append_stop_iff (p := []) hv hw
  have hrest : .char '.' :: (v ++ [.char '.']) <:+: .char '.' :: w ++ .char '.' :: t ↔ _ :=
    infix_append_stop_two hv not_mem_nil
  rw [holds_iff_isInfix, htext, infix_append_stop_two hv not_mem_nil, ← or_assoc, or_iff_right (hfirst _)]
  rw [cons_append, or_iff_right hsecond, hsame] at hrest
  rw [hrest]
  simp

/-- What stands before a marker is the component just if it is the marker behind the component. -/
theorem before_eq_iff_marker {other : Text} (hother : other ∈ propertyMarkers)
    (hholds : holds (r ++ marker ++ t) other = true) : before other (r ++ marker ++ t) = r ↔ other = marker := by
  obtain ⟨w, rfl, hw⟩ := exists_of_mem_propertyMarkers hmarker
  obtain ⟨v, rfl, hv⟩ := exists_of_mem_propertyMarkers hother
  rw [holds, append_assoc, cut?_append_left hr, Option.isSome_map] at hholds
  obtain ⟨⟨a, b⟩, hcut⟩ := Option.isSome_iff_exists.mp hholds
  have hbefore : before (.char '.' :: (v ++ [.char '.'])) (r ++ (.char '.' :: (w ++ [.char '.']) ++ t)) = r ++ a := by
    rw [before, cut?_append_left hr, hcut]
    rfl
  rw [append_assoc, hbefore, append_right_eq_self]
  constructor
  · rintro rfl
    have hprefix : .char '.' :: (v ++ [.char '.']) <+: .char '.' :: (w ++ .char '.' :: t) :=
      ⟨b, by simpa using (cut?_eq_some hcut).symm⟩
    obtain h | ⟨rfl, -⟩ := (prefix_append_stop_two hv not_mem_nil).mp (cons_prefix_cons.mp hprefix).2
    · exact absurd (h.subset (by simp)) hw
    · rfl
  · intro hsame
    have hprefix := prefix_append (.char '.' :: (w ++ [.char '.'])) t
    rw [cons_append] at hcut hprefix
    rw [hsame, cut?, if_pos ( isPrefixOf_iff_prefix.mpr hprefix)] at hcut
    exact (Prod.mk.inj (Option.some.inj hcut)).1.symm

/-- **When the component is what stands before the property**: no marker of the property may come earlier in the
order of the markers. -/
theorem componentPart_eq_iff : componentPart (r ++ marker ++ t) = r ↔
    ∀ earlier ∈ propertyMarkers.takeWhile (· != marker), ¬ earlier <:+: .char '.' :: t := by
  have hself : holds (r ++ marker ++ t) marker = true := (holds_marker_iff hr hmarker hmarker).mpr (.inl rfl)
  obtain ⟨first, hfirst⟩ := Option.isSome_iff_exists.mp (find?_isSome.mpr ⟨marker, hmarker, hself⟩)
  have hpart : componentPart (r ++ marker ++ t) = before first (r ++ marker ++ t) := by rw [componentPart, hfirst]
  rw [hpart, before_eq_iff_marker hr hmarker (mem_of_find?_eq_some hfirst) (find?_some hfirst)]
  have hsome : first = marker ↔ propertyMarkers.find? (holds (r ++ marker ++ t)) = some marker := by
    rw [hfirst, Option.some.injEq]
  rw [hsome, find?_eq_some_iff_takeWhile hmarker hself]
  refine forall₂_congr fun earlier hearlier => ?_
  have hne : earlier ≠ marker := by simpa using mem_takeWhile_imp hearlier
  have hmem := (takeWhile_sublist _).subset hearlier
  rw [← Bool.not_eq_true, holds_marker_iff hr hmarker hmem, or_iff_right hne]

end Marker

end ComponentTree

/-! ## Bindings -/

namespace ComponentReference

open ComponentTree

/-- A binding that is a relative reference: a property binding to a path in one line, or an expression that is
nothing but a reference between braces. -/
inductive RefersTo (levels : Nat) (reference : Text) : NodeData → Prop
  | target {config : List (Text × Json)} (hline : .char '\n' ∉ reference) :
    RefersTo levels reference (.propertyBinding (.str (dotsText levels ++ reference)) config)
  | expression {config : List (Text × Json)} (hbrace : .char '\x7d' ∉ reference) : RefersTo levels reference
      (.expressionBinding (.str (.char '\x7b' :: (dotsText levels ++ (reference ++ [.char '\x7d'])))) config)

variable {levels : Nat} {reference : Text}

theorem ofTarget?_dotsText (hlevels : 2 ≤ levels) (hne : reference ≠ []) (hline : .char '\n' ∉ reference) :
    ofTarget? (dotsText levels ++ reference) = some ⟨levels - 1, componentPart reference⟩ := by
  have htake : reference.takeWhile (· != .char '\n') = reference := by
    rw [takeWhile_eq_self_iff]
    rintro x hx
    simpa using ne_of_mem_of_not_mem hx hline
  rw [ofTarget?, dots?_eq_some_iff.mpr ⟨hlevels, rfl⟩]
  simp only [Option.bind_eq_bind, Option.bind_some, htake, drop_length]
  rw [if_neg (by simp [hne])]
  rfl

theorem inExpression_dotsText (hlevels : 2 ≤ levels) (hne : reference ≠ []) (hbrace : .char '\x7d' ∉ reference) :
    inExpression (.char '\x7b' :: (dotsText levels ++ (reference ++ [.char '\x7d']))) =
      [⟨levels - 1, componentPart reference⟩] := by
  have hstep : braced? (.char '\x7b' :: (dotsText levels ++ (reference ++ [.char '\x7d']))) =
      some (⟨levels - 1, componentPart reference⟩, levels + 2 + (reference.length + 1)) := by
    have hinner := enclosed?_nil_eq_some_iff.mpr ⟨[], rfl, hne, hbrace, rfl⟩
    simp [braced?, after?, dots?_eq_some_iff.mpr ⟨hlevels, rfl⟩, hinner]
  rw [inExpression, scan_of_some hstep (cons_ne_nil _ _)]
  rw [drop_of_length_le (by simp; omega)]
  rfl

/-- A binding that refers to a component of the tree gives no cause for complaint, if the component is what is
looked for. -/
theorem complaints_eq_nil {c : Config} {tree : ComponentTree} {n : Node} (hlevels : 2 ≤ levels)
    (hne : reference ≠ []) (hn : RefersTo levels reference n.data) {start place : Text}
    (hstart : tree.up? (levels - 1) (tree.ownerOf n.path) = some start)
    (hplace : tree.resolve? start (componentPart reference) = some place) (hplaced : place ≠ []) :
    c.complaints tree n = .ok [] := by
  have hcheck (kind title full : Text) :
      tree.checkRelative n.path kind title full ⟨levels - 1, componentPart reference⟩ = none := by
    simp [checkRelative, hstart, hplace, hplaced]
  generalize hdata : n.data = data at hn
  cases hn with
  | target hline =>
    simp only [Config.complaints, hdata, ofTarget?_dotsText hlevels hne hline, Option.bind_some, hcheck]
    split <;> rfl
  | expression hbrace =>
    simp only [Config.complaints, hdata, inExpression_dotsText hlevels hne hbrace, hcheck, filterMap_cons,
      filterMap_nil]
    split <;> rfl

/-- **The component of a reference.** Let a reference name a component by a path without dots, then a marker and a
property. The component is found to be that path just if no marker in the property comes before the first one in
the order of the markers. Then a binding that refers to a component of the view is never reported. -/
theorem reference_to_component_iff (hr : .char '.' ∉ r) (hmarker : marker ∈ propertyMarkers) :
    (componentPart (r ++ marker ++ t) = r ↔
      ∀ earlier ∈ propertyMarkers.takeWhile (· != marker), ¬ earlier <:+: .char '.' :: t) ∧
    ((∀ earlier ∈ propertyMarkers.takeWhile (· != marker), ¬ earlier <:+: .char '.' :: t) →
      ∀ (c : Config) (tree : ComponentTree) (n : Node) (levels : Nat) (start place : Text), 2 ≤ levels →
        RefersTo levels (r ++ marker ++ t) n.data → tree.up? (levels - 1) (tree.ownerOf n.path) = some start →
        tree.resolve? start r = some place → place ≠ [] → c.complaints tree n = .ok []) := by
  have hpart := componentPart_eq_iff (t := t) hr hmarker
  refine ⟨hpart, fun hnone c tree n levels start place hlevels hn hstart hplace hplaced => ?_⟩
  have hne : r ++ marker ++ t ≠ [] := by
    obtain ⟨w, rfl, -⟩ := exists_of_mem_propertyMarkers hmarker
    simp
  exact complaints_eq_nil hlevels hne hn hstart ((hpart.mpr hnone).symm ▸ hplace) hplaced

/-- A switch and a button with a binding, beside each other. -/
def switchAndButton : ComponentTree :=
  (((({} : ComponentTree).add "root" (.str "root")).add "root.children[0].Switch" (.str "Switch")).add
    "root.children[1].Button" (.str "Button"))

def bound (target : Text) : Node :=
  ⟨"root.children[1].Button.propConfig.props.enabled", .propertyBinding (.str target) []⟩

def everywhere : Config := ⟨{ targets := .kinds kinds, severity := .error }, true, true, true⟩

theorem reference_to_component_switch :
    everywhere.complaints switchAndButton (bound "../Switch.props.a.custom.b") = .ok [] := by
  refine (@reference_to_component_iff "Switch" "a.custom.b" ".props." (by decide) (by decide)).2 (by decide) everywhere
    switchAndButton (bound "../Switch.props.a.custom.b") 2 "root" "root.children[0].Switch" (by decide)
    (.target (by decide)) ?_ ?_ ?_
  all_goals decide +kernel

end ComponentReference

end ViewLint
