import ViewLint.Proofs.Fields
import ViewLint.Rule.NamePattern

/-!
# The fixes that rename a component

* `NamePattern.Config.RenamesTo`: what a fix for a component does, and when it is safe.
* `NamePattern.Config.MadeFor`, **`NamePattern.Config.madeFor_of_check`**: every fix of the rule is made for a
  complaint about a component among the nodes, and is such a fix for that component.
-/

namespace ViewLint.NamePattern.Config

variable {fixes : List Fix} {nodes : List Node} {findings : List Finding} {c : Config}
  {context : FixContext} {fix : Fix}

/-- A fix gives the component at a node a new name, and follows the references to the old one. -/
structure RenamesTo (context : FixContext) (n : Node) (old : Json) (new : Text) (refs : List Reference)
    (fix : Fix) : Prop where
  new_ne_nil : new ≠ []
  old_ne : old.equals (.str new) = false
  find_eq : Reference.find context.flat context.locator old = .ok refs
  operations_eq : ∃ place description, context.locator.namePlace? (.str n.path) = some place ∧
    fix.operations = ⟨place, .set old (.str new), description⟩ :: Reference.renameOperations old (.str new) refs
  safe_iff : fix.safe = true ↔ refs = [] ∧ Reference.asksOwnName context.flat n.path = false

theorem renamesTo_of_componentFix {n : Node} {old : Json}
    {violation : Text} (h : c.componentFix context n old violation = .ok (some fix)) :
    (∃ new refs, c.suggest n.kind old = .ok (some new) ∧ RenamesTo context n old new refs fix) ∧
      fix.violation = violation := by
  rw [componentFix, bind_eq_ok] at h
  obtain ⟨new?, hnew, h⟩ := h
  cases new? with
  | none => cases h
  | some new =>
    simp only at h
    split at h
    · cases h
    · next hnew' =>
      obtain ⟨hne, hold⟩ : new ≠ [] ∧ old.equals (.str new) = false := by simpa using hnew'
      split at h
      · cases h
      · next place hplace =>
        obtain ⟨refs, hrefs, h⟩ := bind_eq_ok.mp h
        cases h
        refine ⟨⟨new, refs, hnew, hne, hold, hrefs, ⟨place, _, hplace, rfl⟩, ?_⟩, rfl⟩
        cases refs <;> cases Reference.asksOwnName context.flat n.path <;> simp

/-- A fix is made for a complaint about the name of a component. -/
structure MadeFor (c : Config) (context : FixContext) (n : Node) (fix : Fix) : Prop where
  kind_eq : n.kind = .component
  isTrue : (nameOf n).isTrue = true
  complaint : ∃ complaints complaint, c.validate .component (nameOf n) = .ok complaints ∧ complaint ∈ complaints ∧
    fix.violation = n.path ++ ": " ++ complaint
  renamesTo : ∃ new refs, c.suggest .component (nameOf n) = .ok (some new) ∧
    RenamesTo context n (nameOf n) new refs fix

theorem madeFor_of_inspect {n : Node} {result : List Finding × List Fix} (h : c.inspect (some context) n = .ok result)
    (hfix : fix ∈ result.2) : MadeFor c context n fix := by
  simp only [inspect] at h
  split at h
  · cases h; cases hfix
  · split at h
    · cases h; cases hfix
    · next hname =>
      obtain ⟨severity, -, h⟩ := bind_eq_ok.mp h
      obtain ⟨complaints, hcomplaints, h⟩ := bind_eq_ok.mp h
      split at h
      · next hkind =>
        have hkind : n.kind = .component := by simpa using hkind
        obtain ⟨fixes, hfixes, h⟩ := bind_eq_ok.mp h
        cases h
        obtain ⟨violation, hviolation, hmade⟩ := mem_of_filterMapM_ok hfixes hfix
        obtain ⟨complaint, hcomplaint, rfl⟩ := List.mem_map.mp hviolation
        obtain ⟨hrenames, hviolation⟩ := renamesTo_of_componentFix hmade
        exact ⟨hkind, by simpa using hname, ⟨complaints, complaint, hkind ▸ hcomplaints, hcomplaint, hviolation⟩,
          hkind ▸ hrenames⟩
      · cases h; cases hfix

theorem madeFor_of_check (h : c.check (some context) nodes = .ok (findings, fixes))
    (hfix : fix ∈ fixes) : ∃ n ∈ nodes, MadeFor c context n fix := by
  rw [check, bind_eq_ok] at h
  obtain ⟨selected, hselected, h⟩ := h
  obtain ⟨results, hresults, h⟩ := bind_eq_ok.mp h
  cases h
  obtain ⟨result, hresult, hfix⟩ := List.mem_flatMap.mp hfix
  obtain ⟨n, hn, hinspect⟩ := mem_of_mapM_ok hresults hresult
  obtain ⟨-, rfl⟩ := filterM_eq_ok_iff.mp hselected
  exact ⟨n, List.mem_of_mem_filter hn, madeFor_of_inspect hinspect hfix⟩

end ViewLint.NamePattern.Config
