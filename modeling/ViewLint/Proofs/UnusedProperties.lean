import ViewLint.Proofs.BindingOrder
import ViewLint.Proofs.Modelled
import ViewLint.Proofs.PropertyReferences

/-!
# Unused properties of a view

A custom property `x` of a view is reported as unused exactly if no text of the view holds `view.custom.x` and no
binding node of an expression, a property or a tag belongs to `custom.x`. The rule looks for references in the nodes
of the model and in the texts of the view; the texts of the nodes are texts of the view, so that only the owners of
bindings add to what the search of all texts finds.

* `Model.supplies_of_mem_offered`: the nodes take their texts from the view.
* `UnusedProperty.ofNodes_eq_ok_iff`: what the rule learns from nodes.
* **`UnusedProperty.reported_iff`**: the verdict.
-/

namespace ViewLint

variable {v : Json}

open List Text Fields Flat Model Node

/-! ## What the nodes of a model take from the view -/

/-- The value in which a node can refer to properties. -/
def Node.source? (n : Node) : Option Json :=
  match n.data with
  | .expressionBinding v _ | .propertyBinding v _ | .tagBinding v _ _ _ => some v
  | .script s => some s.text
  | _ => none

namespace Flat

variable {flat : Flat} {n : Node}

/-- A value of a flattened view, or one that stands for a missing one. -/
def Supplies (flat : Flat) (v : Json) : Prop := v ∈ flat.map (·.2) ∨ v ∈ [Json.str "unknown", .str ""]

theorem supplies_of_mem {path : Text} (h : (path, v) ∈ flat) : flat.Supplies v :=
  .inl (mem_map.mpr ⟨_, h, rfl⟩)

theorem supplies_valueAt (flat : Flat) (path key : Text) {fallback : Json}
    (h : fallback ∈ [Json.str "unknown", .str ""]) : flat.Supplies (flat.valueAt path key fallback) := by
  rw [valueAt]
  cases hget : get? flat (path ++ "." ++ key) with
  | none => exact .inr h
  | some v => exact supplies_of_mem (mem_of_get?_eq_some hget)

/-- The nodes of bindings whose owners count as used. -/
def ownerKinds : List NodeKind := [.expressionBinding, .propertyBinding, .tagBinding]

theorem of_bindingAt?_owner {here : Text} {type : Json} (h : flat.bindingAt? here type = some n)
    (hn : n.kind ∈ ownerKinds) : n.path = here ∧ ∃ v, n.source? = some v ∧ flat.Supplies v := by
  have hvalue (key : Text) : flat.Supplies (flat.configValue here key "unknown") :=
    supplies_valueAt _ _ _ (by simp)
  simp only [bindingAt?] at h
  repeat' split at h
  all_goals cases h
  all_goals first
    | exact ⟨rfl, _, rfl, hvalue _⟩
    | exact absurd hn (by simp [kind, NodeData.kind, ownerKinds])

theorem of_mem_bindings (h : n ∈ flat.bindings) (hn : n.kind ∈ ownerKinds) :
    (∃ e ∈ flat, n.path <+: e.1) ∧ ∃ v, n.source? = some v ∧ flat.Supplies v := by
  obtain ⟨⟨here, type⟩, htype, h⟩ := mem_flatMap.mp h
  obtain h | h := mem_append.mp h
  · obtain ⟨hpath, hsource⟩ := of_bindingAt?_owner (Option.mem_toList.mp h) hn
    obtain ⟨e, he, hat⟩ := exists_of_mem_bindingTypes htype
    obtain ⟨rest, hcut⟩ := isTypeAt_iff.mp hat
    refine ⟨⟨e, he, ?_⟩, hsource⟩
    rw [hpath, rcut?_eq_some hcut, append_assoc]
    exact prefix_append _ _
  · obtain ⟨t, ht, rfl⟩ := mem_map.mp h
    obtain ⟨hvalue, v, -, htype, -⟩ := of_mem_transformsOf ht
    exact ⟨⟨_, htype, prefix_append _ _⟩, _, rfl, supplies_of_mem hvalue⟩

/-! ### Scripts -/

theorem supplies_of_mem_transformScripts (h : n ∈ flat.transformScripts) :
    ∃ s, n.data = .script s ∧ flat.Supplies s.text := by
  obtain ⟨t, -, h⟩ := mem_flatMap.mp h
  obtain ⟨t, ht, rfl⟩ := mem_map.mp h
  exact ⟨_, rfl, supplies_of_mem (of_mem_transformsOf ht).1⟩

theorem supplies_of_mem_messageHandlers (h : n ∈ flat.messageHandlers) :
    ∃ s, n.data = .script s ∧ flat.Supplies s.text := by
  obtain ⟨e, -, hn⟩ := mem_filterMap.mp h
  simp only [Option.ite_none_right_eq_some, Option.some.injEq] at hn
  rw [← hn.2]
  exact ⟨_, rfl, supplies_valueAt _ _ _ (by simp)⟩

theorem supplies_of_mem_eventHandlers (h : n ∈ flat.eventHandlers) :
    ∃ s, n.data = .script s ∧ flat.Supplies s.text := by
  obtain ⟨e, he, hn⟩ := mem_filterMap.mp h
  simp only [Option.ite_none_right_eq_some] at hn
  obtain ⟨here, -, hn⟩ := Option.bind_eq_some_iff.mp hn.2
  obtain ⟨event, -, rfl⟩ := Option.map_eq_some_iff.mp hn
  exact ⟨_, rfl, supplies_of_mem he⟩

theorem supplies_of_mem_customMethods {methods : List Node} (hmethods : flat.customMethods = .ok methods)
    (h : n ∈ methods) : ∃ s, n.data = .script s ∧ flat.Supplies s.text := by
  obtain ⟨parts, hparts, hmethods⟩ := bind_eq_ok.mp hmethods
  have hlearn (e : Text × Json) (he : e ∈ flat) {m m' : MethodParts} (hm : flat.Supplies m.text)
      (hlearn : m.learn e.1 e.2 = .ok m') : flat.Supplies m'.text := by
    obtain rfl | rfl | ⟨i, rfl⟩ | rfl := MethodParts.learn_cases hlearn <;> first | exact hm | exact supplies_of_mem he
  have htexts := forall_methodParts (P := fun m => flat.Supplies m.text) (fun _ => .inr (by simp)) hlearn hparts
  obtain ⟨part, hpart, hnode⟩ := mem_of_mapM_ok hmethods h
  obtain ⟨role, -, hn⟩ := bind_eq_ok.mp hnode
  cases hn
  exact ⟨_, rfl, htexts part hpart⟩

end Flat

/-! ## The nodes that are offered -/

namespace Model

variable {flat : Flat} {m : Model} {n : Node} (hm : build flat = .ok m)

include hm

theorem bindings_of_build : m.bindings = flat.bindings := by
  obtain ⟨methods, -, hm⟩ := bind_eq_ok.mp hm
  cases hm
  rfl

theorem properties_of_build : m.properties = flat.properties (m.components.map (·.path)) := by
  obtain ⟨methods, -, hm⟩ := bind_eq_ok.mp hm
  cases hm
  rfl

theorem mem_offered_iff_owner (hn : n.kind ∈ ownerKinds) : n ∈ m.offered ↔ n ∈ flat.bindings := by
  refine mem_offered_iff_bindings hm ?_
  revert hn
  generalize n.kind = kind
  cases kind <;> simp [ownerKinds, nodesOf, NodeKind.scripts]

theorem supplies_of_mem_scripts (h : n ∈ m.scripts) : ∃ s, n.data = .script s ∧ flat.Supplies s.text := by
  obtain ⟨methods, hmethods, hm⟩ := bind_eq_ok.mp hm
  cases hm
  simp only [mem_append] at h
  obtain ((h | h) | h) | h := h
  · exact supplies_of_mem_transformScripts h
  · exact supplies_of_mem_messageHandlers h
  · exact supplies_of_mem_customMethods hmethods h
  · exact supplies_of_mem_eventHandlers h

theorem supplies_of_mem_offered (h : n ∈ m.offered) (hv : n.source? = some v) : flat.Supplies v := by
  have hbinding (hkind : n.kind ∈ ownerKinds) : flat.Supplies v := by
    obtain ⟨w, hw, hsupplies⟩ := (of_mem_bindings ((mem_offered_iff_owner hm hkind).mp h) hkind).2
    cases hv.symm.trans hw
    exact hsupplies
  have hscript (hnodes : m.nodesOf n.kind = ofKind m.scripts n.kind) : flat.Supplies v := by
    rw [mem_offered_iff_nodesOf hm, hnodes] at h
    obtain ⟨s, hs, hsupplies⟩ := supplies_of_mem_scripts hm (mem_filter.mp h).1
    rw [source?, hs] at hv
    cases hv
    exact hsupplies
  obtain ⟨path, data⟩ := n
  cases data with
  | expressionBinding | propertyBinding | tagBinding =>
    exact hbinding (by simp [kind, NodeData.kind, ownerKinds])
  | script s =>
    obtain ⟨text, role⟩ := s
    refine hscript ?_
    cases role <;> rfl
  | _ => cases hv

theorem exists_isPrivateProperty (h : n ∈ m.offered) : ∃ b, n.isPrivateProperty = .ok b := by
  have howners := properties_of_build hm
  obtain ⟨path, data⟩ := n
  cases data with
  | property =>
    replace h : _ ∈ m.properties := (mem_offered_iff_nodesOf hm).mp h
    rw [howners] at h
    obtain ⟨e, -, -, hn⟩ := of_mem_properties h
    cases hn
    exact ⟨_, rfl⟩
  | _ => exact ⟨false, rfl⟩

end Model

namespace UnusedProperty

variable {s : Survey} {defined : List Text} {full path name : Text} {n : Node} {nodes : List Node}
  {flat : Flat} {m : Model}

/-! ## What the rule learns from a node -/

/-- The full name and the path of the property that a node defines. -/
def defines? (n : Node) : Option (Text × Text) :=
  match n.data with
  | .property _ _ _ _ => (definition? n.path).map (·, n.path)
  | _ => none

/-- The full names that the text of a node refers to. -/
def found (n : Node) : List Text :=
  match n.data with
  | .expressionBinding v _ | .propertyBinding v _ | .tagBinding v _ _ _ => (v.str?.map inExpression).getD []
  | .script s => (s.text.str?.map inScript).getD []
  | _ => []

/-- The full name of the property that a node is a binding of. -/
def owned? (n : Node) : Option Text :=
  match n.data with
  | .expressionBinding _ _ | .propertyBinding _ _ | .tagBinding _ _ _ _ => ownerOf? n.path
  | _ => none

def refers (n : Node) : List Text := found n ++ (owned? n).toList

theorem mem_refers_iff : full ∈ refers n ↔ full ∈ found n ∨ owned? n = some full := by
  rw [refers, mem_append, Option.mem_toList]

theorem of_owned? (h : owned? n = some full) : n.kind ∈ ownerKinds ∧ ownerOf? n.path = some full := by
  obtain ⟨path, data⟩ := n
  cases data with
  | expressionBinding | propertyBinding | tagBinding => exact ⟨by simp [kind, NodeData.kind, ownerKinds], h⟩
  | _ => cases h

theorem owned?_of_mem_bindings (h : n ∈ flat.bindings) (hkind : n.kind ∈ ownerKinds) :
    owned? n = ownerOf? n.path := by
  obtain ⟨v, hv, -⟩ := (of_mem_bindings h hkind).2
  obtain ⟨path, data⟩ := n
  cases data with
  | expressionBinding | propertyBinding | tagBinding => rfl
  | script s =>
    obtain ⟨text, role⟩ := s
    cases role <;> simp [kind, NodeData.kind, ScriptRole.kind, ownerKinds] at hkind
  | _ => cases hv

/-- Whether references can be looked for in a value: it is a text or counts as none. -/
def isSearchable (v : Json) : Bool := v.isText || !v.isTrue

theorem referencesOf_eq_ok_iff {find : Text → List Text} {names : List Text} :
    Survey.referencesOf find v = .ok names ↔ isSearchable v = true ∧ (v.str?.map find).getD [] = names := by
  cases v with
  | str t => exact ⟨fun h => ⟨rfl, Except.ok.inj h⟩, fun h => congrArg Except.ok h.2⟩
  | _ =>
    simp only [Survey.referencesOf, isSearchable, Json.isText, Json.str?]
    split <;> simp [*]

theorem visit_eq_ok_iff {s' : Survey} : s.visit n = .ok s' ↔ (∀ v ∈ n.source?, isSearchable v = true) ∧
      ⟨(defines? n).toList.foldl (fun acc d => insert acc d.1 d.2) s.defined, s.used ++ refers n⟩ = s' := by
  obtain ⟨path, data⟩ := n
  cases data with
  | property =>
    simp only [Survey.visit, defines?, refers, found, owned?, Node.source?]
    cases definition? path <;> simp [pure, Except.pure]
  | expressionBinding v | propertyBinding v | tagBinding v | script s =>
    simp [Survey.visit, defines?, refers, found, owned?, bind_eq_ok, referencesOf_eq_ok_iff, Node.source?,
      Survey.refer, pure, Except.pure]
  | _ => simp [Survey.visit, defines?, refers, found, owned?, Node.source?, pure, Except.pure]

theorem ofNodes_eq_ok_iff : Survey.ofNodes nodes = .ok s ↔ (∀ n ∈ nodes, ∀ v ∈ n.source?, isSearchable v = true) ∧
      ⟨ofPairs (nodes.filterMap defines?), nodes.flatMap refers⟩ = s := by
  have hfold (start : Survey) : nodes.foldlM Survey.visit start = .ok s ↔
      (∀ n ∈ nodes, ∀ v ∈ n.source?, isSearchable v = true) ∧
        ⟨(nodes.filterMap defines?).foldl (fun acc d => insert acc d.1 d.2) start.defined,
          start.used ++ nodes.flatMap refers⟩ = s := by
    induction nodes generalizing start with
    | nil => simp [pure, Except.pure]
    | cons n nodes ih =>
      rw [foldlM_cons, bind_eq_ok]
      simp only [visit_eq_ok_iff, ih, forall_mem_cons, flatMap_cons, filterMap_cons]
      cases defines? n <;> simp [and_assoc]
  exact hfold {}

theorem infix_of_mem_found (h : full ∈ found n) : ∃ t, n.source? = some (.str t) ∧ stem full <:+: t := by
  have htext {find : Text → List Text} (hfind : ∀ t, full ∈ find t → stem full <:+: t) {v : Json}
      (h : full ∈ (v.str?.map find).getD []) : ∃ t, some v = some (.str t) ∧ stem full <:+: t := by
    cases v with
    | str t => exact ⟨t, rfl, hfind t h⟩
    | _ => cases h
  obtain ⟨path, data⟩ := n
  cases data with
  | expressionBinding | propertyBinding | tagBinding =>
    exact htext (fun t => infix_of_mem_marked (fun h => prefix_of_enclosed? h) (by decide)) h
  | script => exact htext (fun t => infix_of_mem_marked (fun h => prefix_of_identAfter? h) (by decide)) h
  | _ => cases h

/-! ## What the rule learns of a view -/

def isPublic (n : Node) : Bool := passes (!·) n.isPrivateProperty

/-- The full names of the public properties, each with the path of its last definition. -/
def definitions (m : Model) : List (Text × Text) :=
  ofPairs ((m.properties.filter isPublic).filterMap defines?)

def surveyOf (flat : Flat) (m : Model) : Survey :=
  ⟨definitions m, m.offered.flatMap refers ++ inTexts flat (keys (definitions m))⟩

/-- The rule leaves out no node in which it could find a reference. -/
theorem isKept_of_source? (h : n.source? ≠ none) : (kinds.contains n.kind && isPublic n) = true := by
  obtain ⟨path, data⟩ := n
  cases data with
  | expressionBinding | propertyBinding | tagBinding => rfl
  | script s =>
    obtain ⟨text, role⟩ := s
    cases role <;> rfl
  | _ => exact absurd rfl h

theorem refers_eq_nil (h : n.source? = none) : refers n = [] := by
  obtain ⟨path, data⟩ := n
  cases data with
  | expressionBinding | propertyBinding | tagBinding | script => cases h
  | _ => rfl

theorem check_eq_ok_iff {settings : Json} {c : Config} {findings : List Finding} (hc : create settings = .ok c)
    (hm : Model.build flat = .ok m) : c.check flat m.offered = .ok findings ↔
      (∀ n ∈ m.offered, ∀ v ∈ n.source?, isSearchable v = true) ∧
        (surveyOf flat m).unused.map (fun d => ⟨c.scope.severity, message d.1 d.2⟩) = findings := by
  let keep (n : Node) : Bool := kinds.contains n.kind && isPublic n
  have hselect : c.scope.select m.offered = .ok (m.offered.filter keep) := by
    obtain ⟨args, -, hc⟩ := bind_eq_ok.mp hc
    obtain ⟨-, -, hc⟩ := bind_eq_ok.mp hc
    cases hc
    refine filterM_of_ok fun n hn => ?_
    obtain ⟨b, hb⟩ := Model.exists_isPrivateProperty hm hn
    change (if !kinds.contains n.kind then _ else n.isPrivateProperty >>= _) = _
    simp only [keep, isPublic, hb]
    cases kinds.contains n.kind <;> cases b <;> rfl
  have hsources : (∀ n ∈ m.offered.filter keep, ∀ v ∈ n.source?, isSearchable v = true) ↔
      ∀ n ∈ m.offered, ∀ v ∈ n.source?, isSearchable v = true := by
    refine ⟨fun h n hn v hv => h n (mem_filter.mpr ⟨hn, isKept_of_source? fun hnone => ?_⟩) v hv,
      fun h n hn => h n (mem_filter.mp hn).1⟩
    rw [hnone] at hv
    cases hv
  have hrefers : (m.offered.filter keep).flatMap refers = m.offered.flatMap refers := by
    generalize m.offered = nodes
    induction nodes with
    | nil => rfl
    | cons n nodes ih =>
      rw [filter_cons, flatMap_cons, ← ih]
      split
      · rfl
      · next h => rw [refers_eq_nil (not_not.mp (mt isKept_of_source? h)), nil_append]
  have hdefines : (m.offered.filter keep).filterMap defines? = (m.properties.filter isPublic).filterMap defines? := by
    have hproperties : m.properties = m.offered.filter (·.kind == .property) := (Model.ofKind_offered hm .property).symm
    rw [hproperties, filterMap_filter, filterMap_filter, filterMap_filter]
    refine filterMap_congr fun n _ => ?_
    obtain ⟨path, data⟩ := n
    cases data with
    | property => rfl
    | _ => simp [defines?]
  rw [Config.check, hselect]
  change (Survey.ofNodes _ >>= _) = _ ↔ _
  simp only [bind_eq_ok, ofNodes_eq_ok_iff, hsources, hrefers, hdefines, and_assoc, exists_and_left,
    exists_eq_left', pure, Except.pure, Except.ok.injEq]
  rfl

theorem of_mem_inTexts (h : full ∈ inTexts flat defined) :
    ∃ t ∈ flat.filterMap (·.2.str?), ∃ start name, full = start ++ name ∧ ident? name = some name ∧
      stem full <:+: t ∧ ((".custom." : Text) <:+ start ∨ start = Level.params.viewStart) := by
  obtain ⟨t, ht, h⟩ := mem_flatMap.mp h
  obtain ⟨spelling, hspelling, hspelled⟩ := mem_filterMap.mp h
  have hin := holds_iff_isInfix.mp (mem_filter.mp hspelling).2
  obtain ⟨start, name, hfull, hname, hstem, hstart⟩ := of_spelled? hspelled
  exact ⟨t, ht, start, name, hfull, hname, hstem.trans hin, hstart⟩

section Used

variable (hm : Model.build flat = .ok m)

include hm

theorem mem_used_of_owner (hn : n ∈ flat.bindings) (h : owned? n = some full) : full ∈ (surveyOf flat m).used := by
  have hoffered := (mem_offered_iff_owner hm (of_owned? h).1).mpr hn
  exact mem_append_left _ (mem_flatMap.mpr ⟨n, hoffered, mem_refers_iff.mpr (.inr h)⟩)

/-- A name is used because a text of the view holds it or because it owns a binding. No text that stands for a
missing one holds a name. -/
theorem of_mem_used (hdot : .char '.' ∈ stem full) (h : full ∈ (surveyOf flat m).used) :
    (∃ t ∈ flat.filterMap (·.2.str?), stem full <:+: t) ∨ ∃ n ∈ flat.bindings, owned? n = some full := by
  obtain h | h := mem_append.mp h
  · obtain ⟨n, hn, h⟩ := mem_flatMap.mp h
    obtain h | h := mem_refers_iff.mp h
    · obtain ⟨t, ht, hin⟩ := infix_of_mem_found h
      obtain hsupplies | hsupplies := supplies_of_mem_offered hm hn ht
      · obtain ⟨e, he, hvalue⟩ := mem_map.mp hsupplies
        exact .inl ⟨t, mem_filterMap.mpr ⟨e, he, by rw [hvalue]; rfl⟩, hin⟩
      · have hfree : .char '.' ∉ t := by
          simp only [mem_cons, Json.str.injEq, not_mem_nil, or_false] at hsupplies
          obtain rfl | rfl := hsupplies <;> decide
        exact absurd (hin.subset hdot) hfree
    · exact .inr ⟨n, (mem_offered_iff_owner hm (of_owned? h).1).mp hn, h⟩
  · obtain ⟨t, ht, start, name, -, -, hin, -⟩ := of_mem_inTexts h
    exact .inl ⟨t, ht, hin⟩

end Used

/-! ## What is said of a property -/

theorem message_append (start path : Text) (hname : .char '.' ∉ name) : ∃ kind : Text,
    (kind = "view parameter" ∨ kind = "custom property") ∧ message (start ++ .char '.' :: name) path =
        path ++ (ofString ": " ++ kind ++ " '" ++ name ++ "' is defined but never referenced") := by
  refine ⟨if holds (start ++ .char '.' :: name) ".params." then "view parameter" else "custom property", ?_, ?_⟩
  · split
    · exact .inl rfl
    · exact .inr rfl
  · have hafter : afterLast "." (start ++ .char '.' :: name) = name := afterLast_append_stop start hname
    rw [message, hafter]
    split <;> simp [append_assoc]

/-- Whether a full name and a path end in the same step. -/
def SameLast (full path : Text) : Prop :=
  ∃ name, .char '.' ∉ name ∧ .char '.' :: name <:+ full ∧ .char '.' :: name <:+ path

/-- A message tells which property it is about: the last point of it is the last one of the path, and what is said of
the two kinds of properties differs in length by one. -/
theorem path_eq_of_message {full' path' : Text} (h : SameLast full path) (h' : SameLast full' path')
    (heq : message full path = message full' path') : path = path' := by
  obtain ⟨name, hname, ⟨start, rfl⟩, ⟨a, rfl⟩⟩ := h
  obtain ⟨name', hname', ⟨start', rfl⟩, ⟨a', rfl⟩⟩ := h'
  obtain ⟨kind, hkind, hmessage⟩ := message_append start (a ++ .char '.' :: name) hname
  obtain ⟨kind', hkind', hmessage'⟩ := message_append start' (a' ++ .char '.' :: name') hname'
  rw [hmessage, hmessage', append_assoc a, append_assoc a', cons_append, cons_append] at heq
  have hrest {kind name : Text} (hkind : kind = "view parameter" ∨ kind = "custom property") (hname : .char '.' ∉ name) :
      .char '.' ∉ name ++ (ofString ": " ++ kind ++ " '" ++ name ++ "' is defined but never referenced") := by
    obtain rfl | rfl := hkind <;> simp [hname, ofString]
  obtain ⟨rfl, htexts⟩ := append_cons_inj_right (hrest hkind hname) (hrest hkind' hname') heq
  have hlength : name.length = name'.length := by
    have hlength := congrArg length htexts
    obtain rfl | rfl := hkind <;> obtain rfl | rfl := hkind' <;> simp [ofString] at hlength <;> omega
  rw [append_inj_left htexts hlength]

/-! ## The definitions of a view -/

/-- The public properties with a full name. -/
def definers (m : Model) (full : Text) : List Node :=
  m.properties.filter fun n => isPublic n && definition? n.path == some full

theorem defines?_of_mem (hm : build flat = .ok m) (h : n ∈ m.properties) :
    defines? n = (definition? n.path).map (·, n.path) := by
  have howners := properties_of_build hm
  obtain ⟨e, -, -, rfl⟩ := of_mem_properties (howners ▸ h)
  rfl

theorem mem_definitions_iff (hm : build flat = .ok m) :
    (full, path) ∈ definitions m ↔ (definers m full).getLast?.map (·.path) = some path := by
  have hpairs : ((m.properties.filter isPublic).filterMap defines?).filter (·.1 == full) =
      (definers m full).map fun n => (full, n.path) := by
    rw [definers, filter_filterMap, filterMap_filter, ← filterMap_eq_map, filterMap_filter]
    refine filterMap_congr fun n hn => ?_
    rw [defines?_of_mem hm hn]
    cases isPublic n <;> cases definition? n.path <;> simp [Option.filter]
    split <;> simp [*]
  have hget : get? (definitions m) full = (definers m full).getLast?.map (·.path) := by
    rw [definitions, get?_ofPairs, hpairs, getLast?_map, Option.map_map]
    rfl
  rw [← hget]
  exact ⟨get?_of_nodup (nodup_ofPairs _), mem_of_get?_eq_some⟩

theorem definition?_of_mem_definitions (hm : build flat = .ok m) (h : (full, path) ∈ definitions m) :
    definition? path = some full := by
  rw [mem_definitions_iff hm, Option.map_eq_some_iff] at h
  obtain ⟨n, hn, rfl⟩ := h
  have htest := (mem_filter.mp (mem_of_getLast? hn)).2
  exact eq_of_beq ((Bool.and_eq_true _ _).mp htest).2

/-- The full names that stand for a property: its own one, and the one that leaves the component open. -/
def aliases (full : Text) : List Text :=
  full :: ((if holds full ".custom." && !startsWith full "view." then
    ["*.custom." ++ afterLast ".custom." full] else []) ++
      if startsWith full "view.params." then ["*.params." ++ afterLast "view.params." full] else [])

theorem isUsed_iff : s.isUsed full = true ↔ ∃ u ∈ aliases full, u ∈ s.used := by
  have htest (test : Bool) (u : Text) :
      (test && s.used.contains u) = true ↔ ∃ v ∈ (if test then [u] else []), v ∈ s.used := by
    cases test <;> simp
  simp only [Survey.isUsed, aliases, Bool.or_eq_true, htest, mem_cons, mem_append, contains_iff_mem,
    or_and_right, exists_or, exists_eq_left, or_assoc]

/-- **The verdict on a property**: it is reported exactly if it is defined at its path and nothing uses its full name. -/
theorem message_mem_iff (hm : build flat = .ok m) (hlast : SameLast full path)
    (hpath : ∀ full' ∈ definition? path, full' = full) (severity : Severity) :
    message full path ∈ ((surveyOf flat m).unused.map fun d => (⟨severity, message d.1 d.2⟩ : Finding)).map (·.message) ↔
      (full, path) ∈ definitions m ∧ ∀ u ∈ aliases full, u ∉ (surveyOf flat m).used := by
  simp only [map_map, mem_map, Survey.unused, mem_filter, Function.comp, Bool.not_eq_true',
    Bool.eq_false_iff, ne_eq, isUsed_iff, not_exists, not_and]
  constructor
  · rintro ⟨⟨full', path'⟩, ⟨hd, hunused⟩, hmessage⟩
    have hdefined := definition?_of_mem_definitions hm hd
    obtain rfl := path_eq_of_message (last_of_definition? hdefined) hlast hmessage
    obtain rfl := hpath full' hdefined
    exact ⟨hd, hunused⟩
  · rintro ⟨hd, hunused⟩
    exact ⟨(full, path), ⟨hd, hunused⟩, rfl⟩

/-! ## Properties of the view -/

namespace Level

variable (l : Level)

/-- The names of a property that leave the component open. -/
def openNames : Level → Text → List Text
  | custom, _ => []
  | params, name => ["*.params." ++ name]

theorem aliases_viewStart (hname : .char '.' ∉ name) :
    aliases (l.viewStart ++ name) = (l.viewStart ++ name) :: l.openNames name := by
  have hview : startsWith (l.viewStart ++ name) "view." = true :=
    isPrefixOf_iff_prefix.mpr (IsPrefix.trans (by cases l <;> decide) (prefix_append _ name))
  rw [aliases, hview]
  cases l with
  | custom =>
    have hparams : startsWith (custom.viewStart ++ name) "view.params." = false := by
      rw [Bool.eq_false_iff]
      intro h
      have hstart := prefix_of_prefix_length_le ( isPrefixOf_iff_prefix.mp h) (prefix_append _ name) (by decide)
      exact absurd hstart (by decide)
    simp [hparams, openNames]
  | params =>
    have hparams : startsWith (params.viewStart ++ name) "view.params." = true :=
      isPrefixOf_iff_prefix.mpr (prefix_append _ name)
    have hafter : afterLast "view.params." (params.viewStart ++ name) = name := by
      have hcut : rcut? "view.params." (params.viewStart ++ name) = some ([], name) :=
        rcut?_word (w := ofString "view.params") hname []
      rw [afterLast, hcut]
      rfl
    simp [hparams, hafter, openNames]

theorem definition?_start (hname : .char '.' ∉ name) :
    definition? (l.start ++ name) = some (l.viewStart ++ name) := by
  rw [definition?_eq, viewStep?_eq_some_iff.mpr ⟨l, name, hname, rfl, rfl⟩, Option.some_or]

/-- A text of the view refers to one of its properties exactly if it holds the full name, which has to end in an
identifier. -/
theorem mem_inTexts_iff (hname : .char '.' ∉ name) (hdefined : l.viewStart ++ name ∈ defined) :
    l.viewStart ++ name ∈ inTexts flat defined ↔
      ident? name = some name ∧ ∃ t ∈ flat.filterMap (·.2.str?), l.viewStart ++ name <:+: t := by
  have hstem : stem (l.viewStart ++ name) = l.viewStart ++ name := by
    rw [stem_append (by cases l <;> decide)]
    cases l <;> rfl
  have hwanted : l.viewStart ++ name ∈ defined.flatMap spellings := by
    refine mem_flatMap.mpr ⟨_, hdefined, ?_⟩
    have hstart : startsWith (l.viewStart ++ name) l.viewStart = true :=
      isPrefixOf_iff_prefix.mpr (prefix_append _ name)
    rw [spellings, if_pos (by cases l <;> simp [← hstart, viewStart])]
    exact mem_cons_self
  constructor
  · intro h
    obtain ⟨t, ht, start, ident, hfull, hident, hin, hstart⟩ := of_mem_inTexts h
    have hlast : .char '.' :: ident <:+ start ++ ident := by
      refine last_append ?_ ident
      obtain hstart | rfl := hstart
      · exact IsSuffix.trans (by decide) hstart
      · decide
    have heq := last_unique hname (not_mem_of_ident? hident (by decide)) (l.last_viewStart name) (hfull ▸ hlast)
    exact ⟨heq ▸ hident, t, ht, hstem ▸ hin⟩
  · rintro ⟨hident, t, ht, hin⟩
    refine mem_flatMap.mpr ⟨t, ht, mem_filterMap.mpr ⟨_, ?_, spelled?_viewStart l hident⟩⟩
    exact mem_filter.mpr ⟨hwanted, holds_iff_isInfix.mpr hin⟩

end Level

theorem not_low_line_propertyName (hname : IsPlainName name) {raw : Text}
    (h : dropIndices raw = "custom." ++ name) : ¬ ("_" : Text) <+: propertyName raw := by
  have hdot : .char '.' ∉ name := hname.not_mem (by decide)
  have hmem : CodePoint.char '.' ∈ dropIndices raw := by
    rw [h]
    simp [ofString]
  obtain ⟨a, t, rfl, ht⟩ := exists_last (mem_of_mem_dropIndices hmem)
  have hcustom : ofString "custom." ++ name = ofString "custom" ++ .char '.' :: name := by
    simp [ofString]
  rw [dropIndices_append_stop (by decide), hcustom] at h
  obtain ⟨-, hlast⟩ := append_cons_inj_right (fun hmem => ht (mem_of_mem_dropIndices hmem)) hdot h
  rw [propertyName]
  intro hlow
  have hafter : afterLast "." (a ++ .char '.' :: t) = t := afterLast_append_stop a ht
  rw [hafter] at hlow
  obtain ⟨r, hr⟩ := low_line_of_dropLastIndex hlow
  obtain ⟨c, hc, hletter⟩ := hname.1
  rw [← hlast, ← hr] at hc
  obtain rfl := Option.some.inj hc
  exact absurd hletter (by decide)

theorem isPrivateProperty_of_path (hname : IsPlainName name) {owners : List Text} (hn : n ∈ flat.properties owners)
    (hpath : n.path = "custom." ++ name) : n.isPrivateProperty = .ok false := by
  obtain ⟨e, -, -, rfl⟩ := of_mem_properties hn
  have hlow := not_low_line_propertyName hname hpath
  have hstart : startsWith (propertyName e.1) "_" = false :=
    Bool.eq_false_iff.mpr fun h => hlow ( isPrefixOf_iff_prefix.mp h)
  have hreserved : propertyName e.1 ≠ "_JavaDate" := fun h => hlow (h ▸ by decide)
  simp [propertyAt, isPrivateProperty, hstart, reservedNames, hreserved]

section Verdict

variable (hpaths : ∀ e ∈ flat, ¬ ("view.custom." : Text) <:+: dropIndices e.1)
  (hm : Model.build flat = .ok m) (hname : IsPlainName name)

include hpaths hm hname

theorem viewName_mem_definitions (h : ∃ n ∈ m.properties, n.path = "custom." ++ name) :
    (viewName name, "custom." ++ name) ∈ definitions m := by
  have howners := properties_of_build hm
  have hdefinition {n : Node} (hn : n ∈ m.properties) :
      definition? n.path = some (viewName name) ↔ n.path = "custom." ++ name := by
    obtain ⟨e, he, -, rfl⟩ := of_mem_properties (howners ▸ hn)
    exact definition?_eq_viewName_iff (hpaths e he) (hname.not_mem (by decide))
  obtain ⟨n, hn, hpath⟩ := h
  have hpublic : isPublic n = true := by
    rw [isPublic, isPrivateProperty_of_path hname (howners ▸ hn) hpath]
    rfl
  have hdefiner : n ∈ definers m (viewName name) := by
    rw [definers, mem_filter, hpublic, (hdefinition hn).mpr hpath]
    exact ⟨hn, by simp⟩
  obtain ⟨last, hlast⟩ := Option.isSome_iff_exists.mp (getLast?_isSome.mpr (ne_nil_of_mem hdefiner))
  obtain ⟨hmem, htest⟩ := mem_filter.mp (mem_of_getLast? hlast)
  rw [mem_definitions_iff hm, hlast, ← (hdefinition hmem).mp (eq_of_beq ((Bool.and_eq_true _ _).mp htest).2)]
  rfl

/-- The texts of the view spell a property out, or a binding belongs to it. -/
theorem viewName_mem_used_iff (hdefined : (viewName name, "custom." ++ name) ∈ definitions m) :
    viewName name ∈ (surveyOf flat m).used ↔ (∃ t ∈ flat.filterMap (·.2.str?), viewName name <:+: t) ∨
      ∃ n ∈ flat.bindings, n.kind ∈ ownerKinds ∧ withoutBinding n.path = "custom." ++ name := by
  have hdot : .char '.' ∉ name := hname.not_mem (by decide)
  have hstem : stem (viewName name) = viewName name := stem_append (by decide : ofString "view.custom." ≠ []) name
  have howner {n : Node} (hn : n ∈ flat.bindings) : owned? n = some (viewName name) ↔
      n.kind ∈ ownerKinds ∧ withoutBinding n.path = "custom." ++ name := by
    have hview (hkind : n.kind ∈ ownerKinds) :
        ownerOf? n.path = some (viewName name) ↔ withoutBinding n.path = "custom." ++ name := by
      refine ownerOf?_eq_viewName_iff hdot fun hin => ?_
      obtain ⟨⟨e, he, hpath⟩, -⟩ := of_mem_bindings hn hkind
      exact hpaths e he (infix_dropIndices (by decide) (hin.trans hpath.isInfix))
    constructor
    · intro h
      obtain ⟨hkind, h⟩ := of_owned? h
      exact ⟨hkind, (hview hkind).mp h⟩
    · rintro ⟨hkind, h⟩
      rw [owned?_of_mem_bindings hn hkind, (hview hkind).mpr h]
  constructor
  · intro hused
    obtain h | ⟨n, hn, h⟩ := of_mem_used hm (by rw [hstem]; simp [viewName, ofString]) hused
    · exact .inl (hstem ▸ h)
    · exact .inr ⟨n, hn, (howner hn).mp h⟩
  · rintro (h | ⟨n, hn, h⟩)
    · have hkey : viewName name ∈ keys (definitions m) := mem_map.mpr ⟨_, hdefined, rfl⟩
      exact mem_append_right _ ((Level.custom.mem_inTexts_iff hdot hkey).mpr ⟨hname.ident?_eq, h⟩)
    · exact mem_used_of_owner hm hn ((howner hn).mpr h)

end Verdict

/-- What is said of an unused property of the view. -/
def complaint (name : Text) : Text :=
  "custom." ++ name ++ ": custom property '" ++ name ++ "' is defined but never referenced"

theorem viewName_eq (name : Text) : viewName name = ofString "view.custom" ++ .char '.' :: name := by
  simp [viewName, ofString]

theorem message_viewName (hname : IsPlainName name) : message (viewName name) ("custom." ++ name) = complaint name := by
  have hdot : .char '.' ∉ name := hname.not_mem (by decide)
  have hparams : holds (viewName name) ".params." = false := by
    rw [Bool.eq_false_iff, ne_eq, holds_iff_isInfix, viewName_eq]
    intro h
    obtain h | ⟨h, -⟩ | h :=
      (infix_append_stop_two (u := ofString "params") (w := []) (by decide) not_mem_nil).mp h
    · exact absurd h (by decide)
    · exact absurd h (by decide)
    · exact hdot (((infix_stop_iff hdot).mp h).subset (by decide))
  have hafter : afterLast "." (viewName name) = name := by
    rw [viewName_eq]
    exact afterLast_append_stop _ hdot
  rw [message, hparams, hafter]
  simp [complaint, ofString]

/-- **The exact verdict on a custom property of a view.** It is reported exactly if no text of the view spells it out
and no binding that the rule looks at belongs to it. -/
theorem reported_iff (settings : Json) (c : Config) (flat : Flat) (m : Model) (name : Text)
    (hc : create settings = .ok c) (hm : Model.build flat = .ok m)
    (htexts : ∀ n ∈ m.offered, ∀ v ∈ n.source?, v.isText = true)
    (hpaths : ∀ e ∈ flat, ¬ ("view.custom." : Text) <:+: dropIndices e.1) (hname : IsPlainName name)
    (hdefined : ∃ n ∈ m.properties, n.path = "custom." ++ name) :
    ∃ findings, c.check flat m.offered = .ok findings ∧ (complaint name ∈ findings.map (·.message) ↔
      (∀ t ∈ flat.filterMap (·.2.str?), ¬ viewName name <:+: t) ∧
        ∀ n ∈ m.bindings, n.kind ∈ Flat.ownerKinds → withoutBinding n.path ≠ "custom." ++ name) := by
  have hown := viewName_mem_definitions hpaths hm hname hdefined
  refine ⟨_, (check_eq_ok_iff hc hm).mpr ⟨fun n hn v hv => by simp [isSearchable, htexts n hn v hv], rfl⟩, ?_⟩
  have hdefinition : definition? ("custom." ++ name) = some (viewName name) :=
    Level.custom.definition?_start (hname.not_mem (by decide))
  have hfull : ∀ full ∈ definition? ("custom." ++ name), full = viewName name :=
    fun full hfull => Option.some.inj (hfull.symm.trans hdefinition)
  have haliases : aliases (viewName name) = [viewName name] :=
    Level.custom.aliases_viewStart (hname.not_mem (by decide))
  rw [← message_viewName hname, message_mem_iff hm (last_of_definition? hdefinition) hfull, and_iff_right hown,
    haliases, forall_mem_singleton, viewName_mem_used_iff hpaths hm hname hown, not_or, Model.bindings_of_build hm]
  simp only [not_exists, not_and]

/-- A view with two properties, of which an expression names one. -/
def tank : Flat :=
  [("custom.idle", .int 0), ("custom.level", .int 3), ("root.meta.name", .str "root"),
    ("root.propConfig.props.text.binding.type", .str "expr"),
    ("root.propConfig.props.text.binding.config.expression", .str "\x7bview.custom.level\x7d")]

theorem reported_iff_tank : ∃ c m findings, create (.object []) = .ok c ∧ Model.build tank = .ok m ∧
    c.check tank m.offered = .ok findings ∧ complaint "idle" ∈ findings.map (·.message) := by
  obtain ⟨m, hm, htexts, hdefined, howners⟩ : ∃ m, Model.build tank = .ok m ∧
      (∀ n ∈ m.offered, ∀ v ∈ n.source?, v.isText = true) ∧
      (∃ n ∈ m.properties, n.path = ofString "custom." ++ "idle") ∧
      ∀ n ∈ m.bindings, n.kind ∈ Flat.ownerKinds → withoutBinding n.path ≠ "custom." ++ "idle" := by decide +kernel
  obtain ⟨findings, hcheck, hreported⟩ := reported_iff (.object []) _ tank m "idle" rfl hm htexts
    (by decide +kernel) (by decide) hdefined
  exact ⟨_, m, findings, rfl, hm, hcheck, hreported.mpr ⟨by decide, howners⟩⟩

/-- A view in which the property of a component has the same full name. -/
def shadowed : Flat :=
  [("custom.X", .int 1), ("root.root.meta.name", .str "root"), ("root.root.view[0].custom.X", .int 2)]

/-- **A property that nothing refers to goes unreported** if the path of another one ends like its full name once its
indices are dropped. -/
theorem not_reported_shadowed : (∀ e ∈ shadowed, ¬ ("view.custom." : Text) <:+: e.1) ∧
    (∀ t ∈ shadowed.filterMap (·.2.str?), ¬ viewName "X" <:+: t) ∧
    ∃ c m findings, create (.object []) = .ok c ∧ Model.build shadowed = .ok m ∧
      (∃ n ∈ m.properties, n.path = "custom.X") ∧ m.bindings.isEmpty = true ∧
      c.check shadowed m.offered = .ok findings ∧ complaint "X" ∉ findings.map (·.message) := by
  simp only [exists_and_left]
  decide +kernel

end UnusedProperty

end ViewLint
