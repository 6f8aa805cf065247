import ViewLint.Proofs.ComponentFix
import ViewLint.Proofs.NamePlaces
import ViewLint.Proofs.SafeRun

/-!
# What the naming rule proposes for a view

A fix of the rule names a component by its flattened path, and changes the document at a place that the
locator gives for that path.

* `NamePattern.Config.review`: what the rule finds in a view, and the fixes it proposes.
* **`NamePattern.Config.proposals_touch_only_names`**: applying the safe fixes changes the names of the components
  they are about and nothing else.
-/

namespace ViewLint.NamePattern.Config

open View Fields Locator

variable {fix : Fix} {c : Config} {v : Json} {findings : List Finding} {fixes : List Fix}

/-- What the rule finds in a view, and the fixes it proposes. -/
def review (c : Config) (v : Json) : Except Fault (List Finding × List Fix) := do
  let flat ← flatten v
  let locator ← Locator.ofDocument v
  let model ← Model.build flat
  c.check (some ⟨flat, locator⟩) model.offered

theorem of_review (h : c.review v = .ok (findings, fixes)) :
    ∃ es l model, entries "" v = .ok es ∧ ofDocument v = .ok l ∧ Model.build (ofPairs es) = .ok model ∧
      c.check (some ⟨ofPairs es, l⟩) model.offered = .ok (findings, fixes) := by
  obtain ⟨flat, hflat, h⟩ := bind_eq_ok.mp h
  obtain ⟨l, hl, h⟩ := bind_eq_ok.mp h
  obtain ⟨model, hmodel, h⟩ := bind_eq_ok.mp h
  obtain ⟨es, hes, rfl⟩ := map_eq_ok.mp hflat
  exact ⟨es, l, model, hes, hl, hmodel, h⟩

def nameSpot (place : Path) : Path := place ++ [.str "meta", .str "name"]

theorem renames_of_review (hdoc : v.isDocument = true) (h : c.review v = .ok (findings, fixes)) (hfix : fix ∈ fixes) :
    ∃ place old new description rest w, fix.operations = ⟨nameSpot place, .set old (.str new), description⟩ :: rest ∧
      v.At (nameSpot place) w ∧ (fix.safe = true → rest = []) := by
  obtain ⟨es, l, model, hes, hl, -, hcheck⟩ := of_review h
  obtain ⟨n, -, hmade⟩ := madeFor_of_check hcheck hfix
  obtain ⟨new, refs, -, hrenames⟩ := hmade.renamesTo
  obtain ⟨spot, description, hplace, hops⟩ := hrenames.operations_eq
  obtain ⟨place, -, -, -, name, -, rfl, -, hat, -⟩ := at_namePlace hdoc hes hl hplace
  refine ⟨place, _, new, description, _, name, hops, hat, fun hsafe => ?_⟩
  rw [(hrenames.safe_iff.mp hsafe).1]
  rfl

theorem applyAll_of_review (hdoc : v.isDocument = true) (h : c.review v = .ok (findings, fixes)) {sel : Fix.Selection}
    (hsel : sel.safeOnly = true) :
    ∃ ρ outcome, Fix.applyAll sel fixes v = .ok (v.graft (Fix.texts ρ), outcome) ∧
      (∀ place new, ρ place = some new ↔ outcome.Sets fixes place new) ∧
      ∀ k ∈ outcome.applied, ∃ fix place new, fixes[k]? = some fix ∧ fix.Sets place new := by
  refine Fix.applyAll_safe hdoc hsel fun fix hfix hsafe => ?_
  obtain ⟨place, old, new, description, rest, w, hops, hat, hrest⟩ := renames_of_review hdoc h hfix
  rw [hrest hsafe] at hops
  exact ⟨nameSpot place, new, w, by simp [nameSpot], hat, old, description, hops⟩

/-- A fix starts by setting the name of the component that it is made for, from the name that stands there. -/
def Targets (c : Config) (v : Json) (components : List Node) (fix : Fix) : Prop :=
  ∃ n ∈ components, ∃ name complaints complaint, nameOf n = .str name ∧
    c.validate .component (.str name) = .ok complaints ∧ complaint ∈ complaints ∧
    fix.violation = n.path ++ ": " ++ complaint ∧
    ∃ place new description rest,
      fix.operations = ⟨nameSpot place, .set (.str name) (.str new), description⟩ :: rest ∧
      v.At (nameSpot place) (.str name)

section Frame

variable {place : Path} {outcome : Fix.Outcome} {es : Flat} (hdoc : v.isDocument = true)
  (hmeta : hasPlainMeta v = true) (hes : entries "" v = .ok es)
  (hdistinct : (es.map (·.1)).Nodup) (h : c.review v = .ok (findings, fixes))

include hdoc hmeta hes hdistinct h

theorem exists_renamesTo (hfix : fix ∈ fixes) :
    ∃ l, ofDocument v = .ok l ∧ ∃ n ∈ Flat.components (ofPairs es), MadeFor c ⟨ofPairs es, l⟩ n fix ∧
      ∃ place name new refs description, nameOf n = .str name ∧ v.At (nameSpot place) (.str name) ∧
        RenamesTo ⟨ofPairs es, l⟩ n (.str name) new refs fix ∧
        fix.operations = ⟨nameSpot place, .set (.str name) (.str new), description⟩ ::
          Reference.renameOperations (.str name) (.str new) refs := by
  obtain ⟨es', l, model, hes', hl, hmodel, hcheck⟩ := of_review h
  cases hes.symm.trans hes'
  obtain ⟨n, hn, hmade⟩ := madeFor_of_check hcheck hfix
  obtain ⟨new, refs, -, hrenames⟩ := hmade.renamesTo
  obtain ⟨spot, description, hspot, hops⟩ := hrenames.operations_eq
  have hcomponent := Model.mem_components_of_offered hmodel hn hmade.kind_eq
  obtain ⟨name, type, hdata, hentry⟩ := Flat.of_mem_components hcomponent
  rw [ofPairs_of_nodup hdistinct] at hentry
  obtain ⟨place, s, rfl, rfl, hat⟩ := name_of_namePlace hdoc hmeta hes hdistinct hl hspot hentry
  have hname : nameOf n = .str s := by rw [nameOf, hdata]
  rw [hname] at hrenames hops
  exact ⟨l, hl, n, hcomponent, hmade, place, s, new, refs, description, hname, hat, hrenames, hops⟩

theorem targets_of_review (hfix : fix ∈ fixes) : Targets c v (Flat.components (ofPairs es)) fix := by
  obtain ⟨l, -, n, hn, hmade, place, name, new, refs, description, hname, hat, -, hops⟩ :=
    exists_renamesTo hdoc hmeta hes hdistinct h hfix
  obtain ⟨complaints, complaint, hcomplaints, hcomplaint, hviolation⟩ := hmade.complaint
  rw [hname] at hcomplaints
  exact ⟨n, hn, name, complaints, complaint, hname, hcomplaints, hcomplaint, hviolation, place, new, description, _,
    hops, hat⟩

/-- Where the applied fixes of a run set a text, the name of a component stands that nothing refers to. -/
theorem unreferenced_of_sets {new : Text} (hsets : outcome.Sets fixes place new) :
    ∃ spot name l, place = nameSpot spot ∧ v.At place (.str name) ∧ new ≠ [] ∧ ofDocument v = .ok l ∧
      Reference.find (ofPairs es) l (.str name) = .ok [] := by
  obtain ⟨k, -, fix, hfix, _, _, hops⟩ := hsets
  obtain ⟨l, hl, n, -, -, spot, name, new', refs, _, -, hat, hrenames, hops'⟩ :=
    exists_renamesTo hdoc hmeta hes hdistinct h (List.mem_of_getElem? hfix)
  rw [hops, List.cons.injEq] at hops'
  obtain ⟨hfirst, hothers⟩ := hops'
  cases hfirst
  -- An operation stands for every reference, and the fix has no operation but the first.
  obtain rfl : refs = [] := List.map_eq_nil_iff.mp hothers.symm
  exact ⟨spot, name, l, rfl, hat, hrenames.new_ne_nil, hl, hrenames.find_eq⟩

/-- Where the applied fixes of a run set a text, the name of a component stands. -/
theorem at_of_sets {new : Text} (hsets : outcome.Sets fixes place new) :
    ∃ spot name, place = nameSpot spot ∧ v.At place (.str name) := by
  obtain ⟨spot, name, -, hplace, hat, -⟩ := unreferenced_of_sets hdoc hmeta hes hdistinct h hsets
  exact ⟨spot, name, hplace, hat⟩

/-- No value of the document stands below one that is set. -/
theorem clearAbove_of_at {ρ : Path → Option Text}
    (hρ : ∀ place new, ρ place = some new ↔ outcome.Sets fixes place new) {w : Json}
    (hat : v.At place w) : Json.ClearAbove (Fix.texts ρ) place := by
  rintro q ⟨rest, rfl⟩ hne
  obtain ⟨x, hx, hrest⟩ := Json.at_append_iff.mp hat
  cases hq : ρ q with
  | none => simp [Fix.texts, hq]
  | some new =>
    obtain ⟨-, name, -, hname⟩ := at_of_sets hdoc hmeta hes hdistinct h ((hρ q new).mp hq)
    cases hx.unique hname
    cases rest with
    | nil => exact absurd (List.append_nil q).symm hne
    | cons step rest => exact absurd hrest (Json.not_at_cons_of_single rfl)

end Frame

/-- **Fixes touch only names.** If no two entries share a path, names are texts and no `meta` object holds
another, then every fix of the rule renames the component it is about; and applying the safe fixes keeps the
shape of the document and every single value in it, but for the names of the applied fixes. -/
theorem proposals_touch_only_names {c : Config} {v : Json} {es : Flat} {findings : List Finding} {fixes : List Fix}
    (hdoc : v.isDocument = true) (hmeta : hasPlainMeta v = true) (hes : entries "" v = .ok es)
    (hdistinct : (es.map (·.1)).Nodup) (h : c.review v = .ok (findings, fixes)) :
    (∀ fix ∈ fixes, Targets c v (Flat.components (Fields.ofPairs es)) fix) ∧
      ∀ sel : Fix.Selection, sel.safeOnly = true → ∃ doc outcome, Fix.applyAll sel fixes v = .ok (doc, outcome) ∧
        doc.shape = v.shape ∧
        (∀ place w, w.isContainer = false → v.At place w → (∀ new, ¬ outcome.Sets fixes place new) → doc.At place w) ∧
        ∀ k ∈ outcome.applied, ∃ fix place new, fixes[k]? = some fix ∧ fix.Sets (nameSpot place) new ∧
          doc.At (nameSpot place) (.str new) := by
  refine ⟨fun fix hfix => targets_of_review hdoc hmeta hes hdistinct h hfix, fun sel hsel => ?_⟩
  obtain ⟨ρ, outcome, hrun, hρ, happlied⟩ := applyAll_of_review hdoc h hsel
  have hclear {place : Path} {w : Json} (hat : v.At place w) : Json.ClearAbove (Fix.texts ρ) place :=
    clearAbove_of_at hdoc hmeta hes hdistinct h hρ hat
  refine ⟨_, outcome, hrun, ?_, ?_, ?_⟩
  · refine Json.shape_graft hdoc (fun _ _ => Fix.isContainer_of_texts) fun q x w hq hw => ?_
    obtain ⟨new, hnew, -⟩ := Option.map_eq_some_iff.mp hq
    obtain ⟨-, name, -, hname⟩ := at_of_sets hdoc hmeta hes hdistinct h ((hρ q new).mp hnew)
    cases hw.unique hname
    rfl
  · intro place w hsingle hat hunset
    have hnone : Fix.texts ρ (place ++ []) = none := by
      cases hq : ρ place with
      | none => simp [Fix.texts, hq]
      | some new => exact absurd ((hρ place new).mp hq) (hunset new)
    have hdocat := Json.at_graft hat (hclear hat)
    rwa [Json.graft_single hnone hsingle] at hdocat
  · intro k hk
    obtain ⟨fix, place, new, hfix, hsets⟩ := happlied k hk
    have hset : outcome.Sets fixes place new := ⟨k, hk, fix, hfix, hsets⟩
    obtain ⟨spot, name, rfl, hat⟩ := at_of_sets hdoc hmeta hes hdistinct h hset
    have hnew : Fix.texts ρ (nameSpot spot ++ []) = some (.str new) := by
      rw [List.append_nil, Fix.texts, (hρ _ _).mpr hset]
      rfl
    have hdocat := Json.at_graft hat (hclear hat)
    rw [Json.graft_of_some (σ := fun q => Fix.texts ρ (nameSpot spot ++ q)) hnew] at hdocat
    exact ⟨fix, spot, new, hfix, hsets, hdocat⟩

/-- The rule for the names of components, with nothing but a convention set. -/
def following (convention : Convention) : Config where
  scope := { targets := .kinds [.component], severity := .warning }
  convention := .str convention.name
  pattern := .str convention.pattern
  description := convention.description

def namedWith (name : Text) (members : List (Text × Json)) : Json :=
  .object (("meta", .object [("name", .str name)]) :: members)

/-- A component with three others in it, the last of which mentions the second one. -/
def hall : Json :=
  namedWith "Hall" [("children", .arr [namedWith "lamp" [], namedWith "bell" [],
    namedWith "Door" [("note", .str "\x7b../bell.on\x7d")]])]

theorem proposals_touch_only_names_hall :
    hall.isDocument = true ∧ hasPlainMeta hall = true ∧ ∃ es findings fixes, entries "" hall = .ok es ∧
      (es.map (·.1)).Nodup ∧ (following .pascal).review hall = .ok (findings, fixes) ∧ fixes.map (·.safe) = [true, false] ∧
      (∀ fix ∈ fixes, Targets (following .pascal) hall (Flat.components (Fields.ofPairs es)) fix) ∧
      ∃ doc outcome, Fix.applyAll {} fixes hall = .ok (doc, outcome) ∧ doc.shape = hall.shape := by
  have hdoc : hall.isDocument = true := by decide
  have hmeta : hasPlainMeta hall = true := by decide
  obtain ⟨⟨findings, fixes⟩, hreview, hsafe⟩ : ∃ r, (following .pascal).review hall = .ok r ∧
      r.2.map (·.safe) = [true, false] := by decide +kernel
  obtain ⟨es, hes, hdistinct⟩ : ∃ es, entries "" hall = .ok es ∧ (es.map (·.1)).Nodup := by decide +kernel
  obtain ⟨htargets, hrun⟩ := proposals_touch_only_names hdoc hmeta hes hdistinct hreview
  obtain ⟨doc, outcome, happly, hshape, -⟩ := hrun {} rfl
  exact ⟨hdoc, hmeta, es, findings, fixes, hes, hdistinct, hreview, hsafe, htargets, doc, outcome, happly, hshape⟩

end ViewLint.NamePattern.Config
