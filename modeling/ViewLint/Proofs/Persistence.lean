import ViewLint.Proofs.BoundProperties

/-!
# Properties that do not persist

Whether a property persists is looked up at `propConfig.` and the path of each of its entries. The configuration of a
property stands there only for a property of the view with a single value: of a property of a component, and of one
that is an array or an object, all entries are modelled although the configuration denies them.

* **`UnusedProperty.denied_modelled_iff`**: which entries of a property that does not persist are modelled.
-/

namespace ViewLint.UnusedProperty

open Flat

variable {flat : Flat} {owners : List Text} {path : Text}

theorem isProperty_of_persistence (hreserved : isReserved path = false)
    (howner : isViewProperty path = true ∨ ∃ owner ∈ owners, owner ≠ [] ∧ owner <+: path)
    (hown : flat.persistence path = .null) : flat.isProperty owners path = true := by
  have hkept : (flat.persistenceOrTrue path).isTrue = true := by
    rw [persistenceOrTrue, hown]
    rfl
  rw [isProperty, hreserved, hkept]
  obtain hview | ⟨owner, howner, hne, hstart⟩ := howner
  · rw [hview]
    rfl
  · have hany : (owners.any fun owner => !owner.isEmpty && Text.startsWith path owner) = true :=
      List.any_eq_true.mpr ⟨owner, howner, by
        rw [Bool.and_eq_true, Bool.not_eq_true', List.isEmpty_eq_false_iff]
        exact ⟨hne, List.isPrefixOf_iff_prefix.mpr hstart⟩⟩
    rw [hany]
    cases isViewProperty path <;> simp

theorem isProperty_of_denied (hview : isViewProperty path = true) (hown : flat.persistence path = .bool false) :
    flat.isProperty owners path = false := by
  rw [isProperty, hview, persistenceOrTrue, hown]
  exact Bool.and_false _

/-- **The entries of a property that does not persist.** An entry is modelled, unless it is the only value of a property
of the view and no other entry has its path once indices are dropped. -/
theorem denied_modelled_iff (flat : Flat) (m : Model) (o : Owner) (name rest : Text) (v : Json)
    (hm : Model.build flat = .ok m) (hdenied : Fields.get? flat (o.config name ++ ".persistent") = some (.bool false))
    (hentry : (o.property name ++ rest, v) ∈ flat) (hreserved : Flat.isReserved (o.property name ++ rest) = false)
    (howner : ∀ path, o = .component path → path ≠ [] ∧ path ∈ m.components.map (·.path))
    (hown : (∃ l, o = .view l) ∧ rest = [] ∨
      Fields.get? flat ("propConfig." ++ (o.property name ++ rest) ++ ".persistent") = none) :
    (∃ n ∈ m.properties, n.path = Text.dropIndices (o.property name ++ rest)) ↔
      ¬ ((∃ l, o = .view l) ∧ rest = []) ∨ ∃ e ∈ flat, e.1 ≠ o.property name ++ rest ∧
        flat.isProperty (m.components.map (·.path)) e.1 = true ∧
          Text.dropIndices e.1 = Text.dropIndices (o.property name ++ rest) := by
  have hnodes : (∃ n ∈ m.properties, n.path = Text.dropIndices (o.property name ++ rest)) ↔ ∃ e ∈ flat,
      flat.isProperty (m.components.map (·.path)) e.1 = true ∧
        Text.dropIndices e.1 = Text.dropIndices (o.property name ++ rest) := by
    rw [← Flat.mem_path_properties_iff, ← Model.properties_of_build hm, List.mem_map]
  have hview (l : Level) : Flat.isViewProperty ((Owner.view l).property name ++ rest) = true := by
    cases l <;> rfl
  rw [hnodes]
  by_cases hscalar : (∃ l, o = .view l) ∧ rest = []
  · rw [or_iff_right (not_not.mpr hscalar)]
    obtain ⟨⟨l, rfl⟩, rfl⟩ := hscalar
    have hout : flat.isProperty (m.components.map (·.path)) ((Owner.view l).property name ++ []) = false := by
      refine isProperty_of_denied (hview l) ?_
      rw [List.append_nil, Flat.persistence]
      exact congrArg (Option.getD · .null) hdenied
    refine exists_congr fun e => and_congr_right fun _ => ⟨fun h => ⟨fun heq => ?_, h⟩, fun h => h.2⟩
    rw [heq, hout] at h
    cases h.1
  · have hkept : flat.isProperty (m.components.map (·.path)) (o.property name ++ rest) = true := by
      refine isProperty_of_persistence hreserved ?_ ?_
      · cases o with
        | view l => exact .inl (hview l)
        | component path =>
          obtain ⟨hne, hmem⟩ := howner path rfl
          refine .inr ⟨path, hmem, hne, ?_⟩
          rw [Owner.property, List.append_assoc, List.append_assoc]
          exact List.prefix_append path _
      · rw [Flat.persistence, hown.resolve_left hscalar]
        rfl
    exact iff_of_true ⟨_, hentry, hkept, rfl⟩ (.inl hscalar)

/-- A view with a button and a property that does not persist. -/
def denied (o : Owner) (name rest : Text) : Flat :=
  [("root.Button.meta.name", .str "Button"), (o.property name ++ rest, .int 1),
    (o.config name ++ ".persistent", .bool false)]

theorem denied_modelled_iff_button : ∃ m, Model.build (denied (.component "root.Button") "level" "") = .ok m ∧
    ∃ n ∈ m.properties, n.path = "root.Button.custom.level" := by
  obtain ⟨m, hm, hrun⟩ : ∃ m, Model.build (denied (.component "root.Button") "level" "") = .ok m ∧
      Text.ofString "root.Button" ∈ m.components.map (·.path) := by decide +kernel
  refine ⟨m, hm, ?_⟩
  have hmodelled := denied_modelled_iff _ m (.component "root.Button") "level" "" (.int 1) hm rfl (by simp [denied])
    (by decide) ?_ (.inr rfl)
  · exact hmodelled.mpr (.inl (by simp))
  · intro path heq
    cases heq
    exact ⟨by decide, hrun⟩

/-- **A property that does not persist is modelled**: that of a component. -/
theorem modelled_though_denied :
    Fields.get? (denied (.component "root.Button") "level" "") "root.Button.propConfig.custom.level.persistent" =
        some (.bool false) ∧
      ∃ m, Model.build (denied (.component "root.Button") "level" "") = .ok m ∧
        ∃ n ∈ m.properties, n.path = "root.Button.custom.level" :=
  ⟨rfl, by decide +kernel⟩

end ViewLint.UnusedProperty
