import Mathlib.Algebra.GroupWithZero.Nat
import Mathlib.Data.Multiset.Bind
import ViewLint.Proofs.EngineRuns
import ViewLint.Proofs.NamePlaces

/-!
# The collections of a model

A model is made by putting one new node after another into collections: a binding or a script into the common
one and into the one of its kind. Two of these nodes may be equal in all they hold, so they are told apart by the
order in which they are made.

* `Collection`: the thirteen collections; `Collection.offered` are the eleven that rules are offered.
* `Filing`: a new node with the collections that it is put into.
* **`every_node_offered_once`**: the eleven collections hold every node once, the common ones are rearrangements of
  their parts, each rule is offered every node once, and the counts by kind add up to the total.
-/

namespace ViewLint

open List

/-! ## Filings -/

/-- A collection of nodes. -/
inductive Collection where
  | components
  | bindings
  | scripts
  | eventHandlers
  | messageHandlers
  | customMethods
  | expressionBindings
  | expressionStructBindings
  | propertyBindings
  | tagBindings
  | queryBindings
  | scriptTransforms
  | properties
  deriving DecidableEq

namespace Collection

def name : Collection → Text
  | components => "components"
  | bindings => "bindings"
  | scripts => "scripts"
  | eventHandlers => "event_handlers"
  | messageHandlers => "message_handlers"
  | customMethods => "custom_methods"
  | expressionBindings => "expression_bindings"
  | expressionStructBindings => "expression_struct_bindings"
  | propertyBindings => "property_bindings"
  | tagBindings => "tag_bindings"
  | queryBindings => "query_bindings"
  | scriptTransforms => "script_transforms"
  | properties => "properties"

def all : List Collection :=
  [components, bindings, scripts, eventHandlers, messageHandlers, customMethods, expressionBindings,
    expressionStructBindings, propertyBindings, tagBindings, queryBindings, scriptTransforms, properties]

/-- The collections in the order in which rules are offered them. -/
def offered : List Collection :=
  [components, messageHandlers, customMethods, expressionBindings, expressionStructBindings, propertyBindings,
    tagBindings, queryBindings, scriptTransforms, eventHandlers, properties]

def ofBindings : List Collection :=
  [expressionBindings, expressionStructBindings, propertyBindings, tagBindings, queryBindings]

def ofScripts : List Collection := [messageHandlers, customMethods, scriptTransforms, eventHandlers]

def own : NodeKind → Collection
  | .component => components
  | .expressionBinding => expressionBindings
  | .expressionStructBinding => expressionStructBindings
  | .propertyBinding => propertyBindings
  | .tagBinding => tagBindings
  | .queryBinding => queryBindings
  | .messageHandler => messageHandlers
  | .customMethod => customMethods
  | .transform => scriptTransforms
  | .eventHandler => eventHandlers
  | .property => properties

def ofKind (kind : NodeKind) : List Collection :=
  if NodeKind.bindings.contains kind then [bindings, own kind]
  else if NodeKind.scripts.contains kind then [scripts, own kind]
  else [own kind]

def ofBindingType (type : Json) : List Collection :=
  let is (word : Text) : Bool := type.equals (.str word)
  bindings ::
    if is "expression" || is "expr" then [expressionBindings]
    else if is "expr-struct" then [expressionStructBindings]
    else if is "property" then [propertyBindings]
    else if is "tag" then [tagBindings]
    else if is "query" then [queryBindings]
    else []

def select (c : Collection) (nodes : List Node) : List Node := nodes.filter fun n => c ∈ ofKind n.kind

end Collection

/-- A new node, with the collections that it is put into one after another. -/
structure Filing where
  node : Node
  into : List Collection

namespace Filing

/-- New nodes that all go into the same collections. -/
def each (nodes : List Node) (into : List Collection) : List Filing := nodes.map (⟨·, into⟩)

/-- The nodes that a collection holds after some filings, each with its number in the order of making. A node
stands in a collection as often as it is put there. -/
def held (fs : List Filing) (c : Collection) : List (Nat × Node) :=
  fs.zipIdx.flatMap fun p => (p.1.into.filter (· == c)).map fun _ => (p.2, p.1.node)

/-- A node is put once into each of the collections of its kind, and into no other. -/
def Fits (f : Filing) : Prop := f.into.Perm (Collection.ofKind f.node.kind)

end Filing

namespace Flat

/-- The new nodes behind a binding path: the binding itself, its script transforms and its expression transforms. -/
def filingsAt (flat : Flat) (path : Text) (type : Json) : List Filing :=
  Filing.each (flat.bindingAt? path type).toList (Collection.ofBindingType type)
    ++ Filing.each (flat.scriptTransforms path) [.scriptTransforms, .scripts]
    ++ Filing.each (flat.expressionTransforms path) [.expressionBindings, .bindings]

/-- The new nodes of a view, pass after pass. -/
def filings (flat : Flat) : Except Fault (List Filing) := do
  let methods ← flat.customMethods
  return Filing.each flat.components [.components]
    ++ flat.bindingTypes.flatMap (fun (path, type) => flat.filingsAt path type)
    ++ Filing.each flat.messageHandlers [.messageHandlers, .scripts]
    ++ Filing.each methods [.customMethods, .scripts]
    ++ Filing.each flat.eventHandlers [.eventHandlers, .scripts]
    ++ Filing.each (flat.properties (flat.components.map (·.path))) [.properties]

end Flat

/-! ## Every node fits its collections -/

namespace Flat

variable {flat : Flat} {path : Text} {n : Node}

theorem kind_of_bindingAt? {type : Json} (h : flat.bindingAt? path type = some n) :
    Collection.ofBindingType type = Collection.ofKind n.kind := by
  simp only [bindingAt?] at h
  simp only [Collection.ofBindingType]
  -- The node and the collection are chosen by the same tests on the type.
  repeat' split at h
  all_goals cases h
  all_goals simp only [*, if_true, if_false, Bool.false_eq_true]
  all_goals rfl

theorem kind_of_mem_scriptTransforms (h : n ∈ flat.scriptTransforms path) : n.kind = .transform := by
  obtain ⟨t, -, rfl⟩ := mem_map.mp h
  rfl

theorem kind_of_mem_expressionTransforms (h : n ∈ flat.expressionTransforms path) : n.kind = .expressionBinding := by
  obtain ⟨t, -, rfl⟩ := mem_map.mp h
  rfl

theorem kind_of_mem_components (h : n ∈ flat.components) : n.kind = .component := by
  obtain ⟨name, type, hdata, -⟩ := of_mem_components h
  rw [Node.kind, hdata]
  rfl

theorem kind_of_mem_messageHandlers (h : n ∈ flat.messageHandlers) : n.kind = .messageHandler := by
  obtain ⟨e, -, hn⟩ := mem_filterMap.mp h
  simp only at hn
  split at hn
  · cases hn
    rfl
  · cases hn

theorem kind_of_toNode {parts : MethodParts} (h : parts.toNode = .ok n) : n.kind = .customMethod := by
  obtain ⟨role, hrole, hn⟩ := bind_eq_ok.mp h
  cases hn
  obtain ⟨name, -, hrole⟩ := bind_eq_ok.mp hrole
  cases hparams : (Json.arr parts.params) with
  | arr items =>
    rw [hparams] at hrole
    obtain ⟨texts, -, hrole⟩ := bind_eq_ok.mp hrole
    cases hrole
    rfl
  | _ => cases hparams

theorem kind_of_mem_customMethods {methods : List Node} (h : flat.customMethods = .ok methods) (hn : n ∈ methods) :
    n.kind = .customMethod := by
  obtain ⟨parts, -, h⟩ := bind_eq_ok.mp h
  obtain ⟨part, -, hpart⟩ := mem_of_mapM_ok h hn
  exact kind_of_toNode hpart

theorem kind_of_mem_eventHandlers (h : n ∈ flat.eventHandlers) : n.kind = .eventHandler := by
  obtain ⟨e, -, hn⟩ := mem_filterMap.mp h
  simp only at hn
  split at hn
  · obtain ⟨here, -, hn⟩ := Option.bind_eq_some_iff.mp hn
    obtain ⟨event, -, rfl⟩ := Option.map_eq_some_iff.mp hn
    rfl
  · cases hn

end Flat

namespace Filing

variable {fs : List Filing} {f : Filing}

theorem fits_each {nodes : List Node} {into : List Collection} {kind : NodeKind}
    (hinto : into.Perm (Collection.ofKind kind)) (h : ∀ n ∈ nodes, n.kind = kind) :
    ∀ f ∈ each nodes into, f.Fits := by
  intro f hf
  obtain ⟨n, hn, rfl⟩ := mem_map.mp hf
  rw [Fits, h n hn]
  exact hinto

@[simp] theorem map_node_each (nodes : List Node) (into : List Collection) : (each nodes into).map node = nodes := by
  rw [each, map_map]
  exact List.map_id nodes

end Filing

theorem Flat.fits_of_filingsAt (flat : Flat) (path : Text) (type : Json) : ∀ f ∈ flat.filingsAt path type, f.Fits := by
  rw [filingsAt]
  refine forall_mem_append.mpr ⟨forall_mem_append.mpr ⟨fun f hf => ?_, ?_⟩, ?_⟩
  · obtain ⟨n, hn, rfl⟩ := mem_map.mp hf
    rw [Filing.Fits, kind_of_bindingAt? (Option.mem_toList.mp hn)]
  · exact Filing.fits_each (by decide) fun n => kind_of_mem_scriptTransforms
  · exact Filing.fits_each (by decide) fun n => kind_of_mem_expressionTransforms

/-- **Every new node goes into the collections of its kind.** -/
theorem Flat.fits_of_filings {flat : Flat} {fs : List Filing} (h : flat.filings = .ok fs) : ∀ f ∈ fs, f.Fits := by
  obtain ⟨methods, hmethods, hfs⟩ := bind_eq_ok.mp h
  cases hfs
  simp only [forall_mem_append]
  refine ⟨⟨⟨⟨⟨?_, fun f hf => ?_⟩, ?_⟩, ?_⟩, ?_⟩, ?_⟩
  · exact Filing.fits_each (by decide) fun n => kind_of_mem_components
  · obtain ⟨binding, -, hf⟩ := mem_flatMap.mp hf
    exact flat.fits_of_filingsAt _ _ f hf
  · exact Filing.fits_each (by decide) fun n => kind_of_mem_messageHandlers
  · exact Filing.fits_each (by decide) fun n => kind_of_mem_customMethods hmethods
  · exact Filing.fits_each (by decide) fun n => kind_of_mem_eventHandlers
  · exact Filing.fits_each (by decide) fun n => kind_of_mem_properties

/-! ## What the collections hold -/

namespace Filing

variable {fs : List Filing} {f : Filing}

theorem Fits.filter_into (h : f.Fits) (c : Collection) :
    f.into.filter (· == c) = if c ∈ Collection.ofKind f.node.kind then [c] else [] := by
  have hnodup : f.into.Nodup := h.nodup_iff.mpr (by cases f.node.kind <;> decide)
  rw [filter_beq, hnodup.count]
  simp only [h.mem_iff]
  split <;> rfl

theorem held_of_fits (h : ∀ f ∈ fs, f.Fits) (c : Collection) : held fs c =
      fs.zipIdx.flatMap fun p => if c ∈ Collection.ofKind p.1.node.kind then [(p.2, p.1.node)] else [] := by
  refine flatMap_congr fun p hp => ?_
  rw [(h p.1 (fst_mem_of_mem_zipIdx hp)).filter_into]
  split <;> rfl

theorem nodes_held (h : ∀ f ∈ fs, f.Fits) (c : Collection) :
    (held fs c).map (·.2) = c.select (fs.map node) := by
  rw [held_of_fits h, Collection.select]
  clear h
  generalize 0 = i
  induction fs generalizing i with
  | nil => rfl
  | cons f fs ih =>
    rw [List.zipIdx_cons, flatMap_cons, map_append, ih, map_cons, filter_cons]
    by_cases hc : c ∈ Collection.ofKind f.node.kind <;> simp [hc]

/-- Several collections together hold each node as often as there are collections of its kind among them. -/
theorem flatMap_held_perm (h : ∀ f ∈ fs, f.Fits) (cs : List Collection) :
    (cs.flatMap (held fs)).Perm (fs.zipIdx.flatMap fun p =>
      replicate (cs.countP fun c => c ∈ Collection.ofKind p.1.node.kind) (p.2, p.1.node)) := by
  have hinner (x : Nat × Node) (kind : NodeKind) :
      (cs.flatMap fun c => if c ∈ Collection.ofKind kind then [x] else []) =
        replicate (cs.countP fun c => c ∈ Collection.ofKind kind) x := by
    induction cs with
    | nil => rfl
    | cons c cs ih =>
      rw [flatMap_cons, ih, countP_cons]
      by_cases hc : c ∈ Collection.ofKind kind <;> simp [hc, replicate_succ]
  simp only [← hinner, funext (held_of_fits h)]
  -- The order of the two passes does not matter for how often something occurs.
  rw [← Multiset.coe_eq_coe]
  simp only [← Multiset.coe_bind]
  exact Multiset.bind_bind _ _

end Filing

/-! ## The model -/

namespace Collection

variable {nodes : List Node} {kind : NodeKind} (c : Collection)

theorem select_append (xs ys : List Node) : c.select (xs ++ ys) = c.select xs ++ c.select ys := filter_append ..

theorem select_of_kind (h : ∀ n ∈ nodes, n.kind = kind) : c.select nodes = if c ∈ ofKind kind then nodes else [] := by
  rw [select]
  split
  · next hc => exact filter_eq_self.mpr fun n hn => decide_eq_true (h n hn ▸ hc)
  · next hc => exact filter_eq_nil_iff.mpr fun n hn => by simpa [h n hn] using hc

theorem select_flatMap {α : Type} (xs : List α) (f : α → List Node) :
    c.select (xs.flatMap f) = xs.flatMap fun x => c.select (f x) := filter_flatMap ..

theorem own_mem_ofKind_iff {k k' : NodeKind} : own k ∈ ofKind k' ↔ k' = k := by cases k <;> cases k' <;> decide

theorem select_own_of_mem (h : c ∈ ofKind kind) (nodes : List Node) :
    (own kind).select nodes = Model.ofKind (c.select nodes) kind := by
  rw [Model.ofKind, select, select, filter_filter]
  refine filter_congr fun n _ => ?_
  simp only [own_mem_ofKind_iff, Bool.beq_eq_decide_eq]
  by_cases hn : n.kind = kind
  · simp [hn, h]
  · simp [hn]

end Collection

theorem Flat.select_filingsAt (flat : Flat) (path : Text) (type : Json) (c : Collection) :
    c.select ((flat.filingsAt path type).map Filing.node) =
      (if c ∈ Collection.ofBindingType type then (flat.bindingAt? path type).toList else [])
        ++ (if c ∈ Collection.ofKind .transform then flat.scriptTransforms path else [])
        ++ (if c ∈ Collection.ofKind .expressionBinding then flat.expressionTransforms path else []) := by
  simp only [filingsAt, map_append, Filing.map_node_each, Collection.select_append]
  rw [c.select_of_kind fun n => kind_of_mem_scriptTransforms,
    c.select_of_kind fun n => kind_of_mem_expressionTransforms]
  congr 2
  cases h : flat.bindingAt? path type with
  | none => simp [Collection.select]
  | some n =>
    have hn : ∀ m ∈ [n], m.kind = n.kind := fun m hm => by rw [mem_singleton.mp hm]
    rw [kind_of_bindingAt? h]
    exact c.select_of_kind hn

def Model.ofFilings (fs : List Filing) : Model where
  components := Collection.components.select (fs.map Filing.node)
  bindings := Collection.bindings.select (fs.map Filing.node)
  scripts := Collection.scripts.select (fs.map Filing.node)
  properties := Collection.properties.select (fs.map Filing.node)

/-- **A model is what the filings put together.** -/
theorem Model.exists_filings {flat : Flat} {m : Model} (h : build flat = .ok m) :
    ∃ fs, flat.filings = .ok fs ∧ m = ofFilings fs := by
  obtain ⟨methods, hmethods, hm⟩ := bind_eq_ok.mp h
  cases hm
  have hbinding (type : Json) : Collection.components ∉ Collection.ofBindingType type
      ∧ Collection.bindings ∈ Collection.ofBindingType type ∧ Collection.scripts ∉ Collection.ofBindingType type
      ∧ Collection.properties ∉ Collection.ofBindingType type := by
    simp only [Collection.ofBindingType]
    split_ifs <;> decide
  have hcomponents (c : Collection) :=
    c.select_of_kind fun n (hn : n ∈ flat.components) => Flat.kind_of_mem_components hn
  have hhandlers (c : Collection) :=
    c.select_of_kind fun n (hn : n ∈ flat.messageHandlers) => Flat.kind_of_mem_messageHandlers hn
  have hcustom (c : Collection) := c.select_of_kind fun n => Flat.kind_of_mem_customMethods (n := n) hmethods
  have hevents (c : Collection) :=
    c.select_of_kind fun n (hn : n ∈ flat.eventHandlers) => Flat.kind_of_mem_eventHandlers hn
  have hproperties (c : Collection) (owners : List Text) :=
    c.select_of_kind fun n (hn : n ∈ flat.properties owners) => Flat.kind_of_mem_properties hn
  refine ⟨_, by rw [Flat.filings, hmethods]; rfl, ?_⟩
  simp only [ofFilings, map_append, map_flatMap, Filing.map_node_each, Collection.select_append,
    Collection.select_flatMap, Flat.select_filingsAt, hbinding, hcomponents, hhandlers, hcustom, hevents, hproperties]
  simp [Collection.ofKind, Collection.own, NodeKind.bindings, NodeKind.scripts, Flat.bindings, Flat.transformScripts]

namespace Model

variable {fs : List Filing}

theorem nodesOf_ofFilings (h : ∀ f ∈ fs, f.Fits) (kind : NodeKind) :
    (ofFilings fs).nodesOf kind = (Filing.held fs (.own kind)).map (·.2) := by
  rw [Filing.nodes_held h]
  cases kind with
  | component | property => rfl
  | expressionBinding | expressionStructBinding | propertyBinding | tagBinding | queryBinding =>
    rw [Collection.select_own_of_mem .bindings (by decide)]
    rfl
  | messageHandler | customMethod | transform | eventHandler =>
    rw [Collection.select_own_of_mem .scripts (by decide)]
    rfl

theorem collections_ofFilings (h : ∀ f ∈ fs, f.Fits) :
    (ofFilings fs).collections = Collection.all.map fun c => (c.name, (Filing.held fs c).map (·.2)) := by
  have hbindings : (Filing.held fs .bindings).map (·.2) = (ofFilings fs).bindings := Filing.nodes_held h _
  have hscripts : (Filing.held fs .scripts).map (·.2) = (ofFilings fs).scripts := Filing.nodes_held h _
  have hall : Collection.all = .own .component :: .bindings :: .scripts :: map Collection.own
      [.eventHandler, .messageHandler, .customMethod, .expressionBinding, .expressionStructBinding, .propertyBinding,
        .tagBinding, .queryBinding, .transform, .property] := rfl
  simp only [hall, map_cons, map_nil, hbindings, hscripts, ← nodesOf_ofFilings h]
  rfl

theorem offered_ofFilings (h : ∀ f ∈ fs, f.Fits) :
    (ofFilings fs).offered = (Collection.offered.flatMap (Filing.held fs)).map (·.2) := by
  have horder : Collection.offered = offeredKinds.map Collection.own := rfl
  rw [offered, horder, flatMap_map, map_flatMap]
  exact flatMap_congr fun kind _ => nodesOf_ofFilings h kind

end Model

/-! ## Nodes after formatting -/

/-- A node that is another one, or what that one has become by the formatting of its script. -/
def Node.Settles (n n' : Node) : Prop := n' = n ∨ n' = n.settled

theorem Script.fillBlank_fillBlank (text : Text) : fillBlank (fillBlank text) = fillBlank text := by
  have hpass : Text.isBlankText "\tpass" = false := by decide +kernel
  unfold fillBlank
  split
  · rw [hpass]; rfl
  · rfl

theorem Node.settled_settled (n : Node) : n.settled.settled = n.settled := by
  obtain ⟨path, data⟩ := n
  cases data with
  | script s =>
    obtain ⟨text, role⟩ := s
    cases text with
    | str text => simp only [settled, Script.settled, Script.fillBlank_fillBlank]
    | _ => rfl
  | _ => rfl

theorem Node.kind_settled (n : Node) : n.settled.kind = n.kind := by
  obtain ⟨path, data⟩ := n
  cases data with
  | script s =>
    obtain ⟨text, role⟩ := s
    cases text <;> rfl
  | _ => rfl

namespace Node.Settles

variable {n n' : Node}

theorem refl (n : Node) : n.Settles n := .inl rfl

theorem settled (h : n.Settles n') : n.Settles n'.settled := by
  obtain rfl | rfl := h
  · exact .inr rfl
  · exact .inr n.settled_settled

theorem kind_eq (h : n.Settles n') : n'.kind = n.kind := by
  obtain rfl | rfl := h
  · rfl
  · exact n.kind_settled

end Node.Settles

namespace Model

/-- A model that is another one but for scripts that have been formatted. -/
structure Settles (m m' : Model) : Prop where
  components : m'.components = m.components
  bindings : m'.bindings = m.bindings
  properties : m'.properties = m.properties
  scripts : Forall₂ Node.Settles m.scripts m'.scripts

theorem Settles.refl (m : Model) : m.Settles m :=
  ⟨rfl, rfl, rfl, forall₂_same.mpr fun n _ => .refl n⟩

theorem forall₂_settleLast {nodes nodes' : List Node} (h : Forall₂ Node.Settles nodes nodes') (paths : List Text) :
    Forall₂ Node.Settles nodes (settleLast nodes' paths).1 := by
  induction h with
  | nil => exact .nil
  | cons hn _ ih =>
    rw [settleLast]
    simp only
    split
    · exact .cons hn.settled ih
    · exact .cons hn ih

theorem Settles.settle {m m' : Model} (h : m.Settles m') (paths : List Text) : m.Settles (m'.settle paths) :=
  ⟨h.components, h.bindings, h.properties, forall₂_settleLast h.scripts paths⟩

theorem forall₂_ofKind {nodes nodes' : List Node} (h : Forall₂ Node.Settles nodes nodes') (kind : NodeKind) :
    Forall₂ Node.Settles (ofKind nodes kind) (ofKind nodes' kind) := by
  induction h with
  | nil => exact .nil
  | cons hn _ ih =>
    rw [ofKind, ofKind, filter_cons, filter_cons, hn.kind_eq]
    split
    · exact .cons hn ih
    · exact ih

/-- Formatting keeps every node at its place among those that rules are offered. -/
theorem Settles.offered {m m' : Model} (h : m.Settles m') : Forall₂ Node.Settles m.offered m'.offered := by
  have hsame (nodes : List Node) : Forall₂ Node.Settles nodes nodes := forall₂_same.mpr fun n _ => .refl n
  have hnodes (kind : NodeKind) : Forall₂ Node.Settles (m.nodesOf kind) (m'.nodesOf kind) := by
    cases kind with
    | component => simpa only [nodesOf, h.components] using hsame m.components
    | property => simpa only [nodesOf, h.properties] using hsame m.properties
    | expressionBinding | expressionStructBinding | propertyBinding | tagBinding | queryBinding =>
      exact forall₂_ofKind (h.bindings ▸ hsame _) _
    | messageHandler | customMethod | transform | eventHandler => exact forall₂_ofKind h.scripts _
  exact rel_flatMap (forall₂_same.mpr fun kind _ => rfl) fun _ kind hkind => hkind ▸ hnodes _

end Model

/-! ## The nodes that rules are offered -/

namespace Engine

variable {e : Engine} {flat : Flat} {m : Model} (source : Json) (locator : Option Locator) (timing : Bool)

/-- Applies rules to the loaded view as `applyRules` does, and notes the nodes that each of them is offered. -/
def applyNoting : List Rule → Engine → LintResults → Session ((Engine × LintResults) × List (List Node))
  | [], e, results => return ((e, results), [])
  | r :: rest, e, results => do
    let subject : Rule.Subject := { flat := e.flat, nodes := e.nodes, stamp := e.stamp, source, locator }
    let (r, formatted) ← r.process subject
    let results ← Session.lift (results.add (if timing then [r.name] else []) r)
    let (final, offers) ← applyNoting rest { e.settle formatted with rules := e.rules ++ [r] } results
    return (final, subject.nodes :: offers)

/-- Applies the rules to the loaded view as `process` does, and notes the nodes that each of them is offered. -/
def processNoting (e : Engine) : Session ((Engine × LintResults) × List (List Node)) := do
  let e ← e.saveDebugIfAsked source
  let ((e, results), offers) ← applyNoting source locator timing e.rules { e with rules := [] } {}
  return ((e, { results with fixes := e.rules.flatMap (·.fixes) }), offers)

theorem fst_applyNoting (rules : List Rule) (e : Engine) (results : LintResults) :
    Prod.fst <$> applyNoting source locator timing rules e results =
      applyRules source locator timing rules e results := by
  induction rules generalizing e results with
  | nil => rw [applyNoting, applyRules, map_pure]
  | cons r rules ih =>
    rw [applyNoting, applyRules, map_bind]
    refine bind_congr fun p => ?_
    rw [map_bind]
    refine bind_congr fun results => ?_
    rw [map_bind, ← ih, ← bind_pure_comp]
    exact bind_congr fun p => map_pure _ _

/-- Noting the nodes changes nothing else. -/
theorem fst_processNoting (e : Engine) :
    Prod.fst <$> e.processNoting source locator timing = e.process source locator timing := by
  rw [processNoting, process, map_bind]
  refine bind_congr fun e' => ?_
  rw [map_bind, ← fst_applyNoting, bind_map_left]
  exact bind_congr fun p => map_pure _ _

/-- An engine with a view loaded, of which it may have formatted scripts. -/
structure Holds (flat : Flat) (m : Model) (e : Engine) : Prop where
  flat_eq : e.flat = flat
  settles : ∃ m', e.model = some m' ∧ m.Settles m'

theorem holds_of_load {e' : Engine} (hm : Model.build flat = .ok m) (h : e.load flat = .ok e') : e'.Holds flat m := by
  obtain ⟨m', hm', heq⟩ := bind_eq_ok.mp h
  cases heq
  cases hm.symm.trans hm'
  exact ⟨rfl, m, rfl, .refl m⟩

theorem Holds.nodes (h : e.Holds flat m) : Forall₂ Node.Settles m.offered e.nodes := by
  obtain ⟨m', hm', hsettles⟩ := h.settles
  rw [Engine.nodes, hm']
  exact hsettles.offered

theorem Holds.settle (h : e.Holds flat m) (formatted : List ScriptCheck.Waiting) :
    (e.settle formatted).Holds flat m := by
  obtain ⟨m', hm', hsettles⟩ := h.settles
  simp only [Engine.settle]
  split
  · exact h
  · exact ⟨h.flat_eq, m'.settle _, by rw [hm']; rfl, hsettles.settle _⟩

theorem Holds.withRules (h : e.Holds flat m) (rules : List Rule) : ({ e with rules } : Engine).Holds flat m :=
  ⟨h.flat_eq, h.settles⟩

theorem offers_of_applyNoting (rules : List Rule) (h : e.Holds flat m) (results : LintResults) :
    Session.Gives (fun p => p.1.1.Holds flat m ∧ p.2.length = rules.length
        ∧ ∀ nodes ∈ p.2, Forall₂ Node.Settles m.offered nodes)
      (applyNoting source locator timing rules e results) := by
  induction rules generalizing e results with
  | nil => exact .pure ⟨h, rfl, forall_mem_nil _⟩
  | cons r rules ih =>
    rw [applyNoting]
    refine .after fun p => .after fun results => ?_
    refine .bind (ih ((h.settle p.2).withRules _) results) fun p hp => .pure ⟨hp.1, ?_, ?_⟩
    · rw [length_cons, hp.2.1, length_cons]
    · exact forall_mem_cons.mpr ⟨h.nodes, hp.2.2⟩

theorem offers_of_processNoting (hm : Model.build flat = .ok m) (h : e.Holds flat m) :
    Session.Gives (fun p => p.1.1.Holds flat m ∧ p.2.length = e.rules.length
      ∧ ∀ nodes ∈ p.2, Forall₂ Node.Settles m.offered nodes) (e.processNoting source locator timing) := by
  rw [processNoting]
  have hsaved : Session.Gives (fun e' => e'.Holds flat m ∧ e'.rules = e.rules) (e.saveDebugIfAsked source) :=
    gives_saveDebugIfAsked source ⟨h, rfl⟩ fun _ he' => ⟨holds_of_load hm (h.flat_eq ▸ he'), rules_of_load he'⟩
  refine .bind hsaved fun e' he' => ?_
  refine .bind (offers_of_applyNoting source locator timing e'.rules (he'.1.withRules []) {}) fun p hp => .pure ?_
  exact ⟨hp.1, he'.2 ▸ hp.2.1, hp.2.2⟩

end Engine

/-! ## Counts by kind -/

theorem sum_filterMap_counts (count : NodeKind → Nat) (kinds : List NodeKind) :
    ((kinds.filterMap fun k => if count k == 0 then none else some (k.name, count k)).map (·.2)).sum =
      (kinds.map count).sum := by
  induction kinds with
  | nil => rfl
  | cons k kinds ih =>
    rw [filterMap_cons, map_cons, sum_cons, ← ih]
    by_cases hk : count k = 0 <;> simp [hk]

theorem sum_length_ofKind (nodes : List Node) :
    (NodeKind.all.map fun k => (Model.ofKind nodes k).length).sum = nodes.length := by
  induction nodes with
  | nil => rfl
  | cons n nodes ih =>
    have hone : (NodeKind.all.map fun k => if n.kind == k then 1 else 0).sum = 1 := by cases n.kind <;> rfl
    have hcons (k : NodeKind) : (Model.ofKind (n :: nodes) k).length =
        (if n.kind == k then 1 else 0) + (Model.ofKind nodes k).length := by
      rw [Model.ofKind, filter_cons]
      split <;> simp [Model.ofKind, Nat.add_comm]
    simp only [hcons, sum_map_add, hone, ih, length_cons, Nat.add_comm]

theorem Engine.sum_kinds_of_statistics {e : Engine} {s : Statistics} (h : e.statistics = .ok s) :
    s.total = e.nodes.length ∧ (s.kinds.map (·.2)).sum = s.total := by
  obtain ⟨types, -, h⟩ := bind_eq_ok.mp h
  obtain ⟨coverage, -, h⟩ := bind_eq_ok.mp h
  cases h
  exact ⟨rfl, (sum_filterMap_counts _ _).trans (sum_length_ofKind e.nodes)⟩

/-! ## Every node once -/

/-- The collections that rules are offered hold every node once. -/
theorem Filing.offered_perm {fs : List Filing} (h : ∀ f ∈ fs, f.Fits) :
    ((Collection.offered.flatMap (held fs)).map (·.1)).Perm (range fs.length) := by
  have hone (kind : NodeKind) : (Collection.offered.countP fun c => c ∈ Collection.ofKind kind) = 1 := by
    cases kind <;> decide
  have hperm := (flatMap_held_perm h Collection.offered).map (·.1)
  simp only [hone, replicate_one, ← map_eq_flatMap, map_map] at hperm
  have hnumbers : fs.zipIdx.map ((·.1) ∘ fun p => (p.2, p.1.node)) = range fs.length := by
    rw [range_eq_range', ← zipIdx_map_snd 0 fs]
    rfl
  exact hnumbers ▸ hperm

theorem Filing.held_perm {fs : List Filing} (h : ∀ f ∈ fs, f.Fits) {c : Collection} {parts : List Collection}
    (hparts : ∀ kind, (parts.countP fun part => part ∈ Collection.ofKind kind) =
      [c].countP fun part => part ∈ Collection.ofKind kind) :
    (held fs c).Perm (parts.flatMap (held fs)) := by
  have hc := flatMap_held_perm h [c]
  rw [flatMap_singleton] at hc
  simp only [← hparts] at hc
  exact hc.trans (flatMap_held_perm h parts).symm

/-- **Every node is offered once.** The nodes of a model are numbered in the order of making. The eleven collections
that rules are offered hold each number once, and the bindings and the scripts are rearrangements of their parts. An
engine that has loaded the view offers each of its rules just these nodes, formatted or not, and goes on holding
them; its counts by kind add up to the number of nodes. -/
theorem every_node_offered_once {flat : Flat} {m : Model} (h : Model.build flat = .ok m) : ∃ fs, flat.filings = .ok fs
      ∧ m.collections = Collection.all.map (fun c => (c.name, (Filing.held fs c).map (·.2)))
      ∧ ((Collection.offered.flatMap (Filing.held fs)).map (·.1)).Perm (range fs.length)
      ∧ (Filing.held fs .bindings).Perm (Collection.ofBindings.flatMap (Filing.held fs))
      ∧ (Filing.held fs .scripts).Perm (Collection.ofScripts.flatMap (Filing.held fs))
      ∧ (∀ e : Engine, ∃ e', e.load flat = .ok e' ∧ e'.Holds flat m)
      ∧ ∀ e : Engine, e.Holds flat m → (∀ source locator timing,
          e.process source locator timing = Prod.fst <$> e.processNoting source locator timing
          ∧ Session.Gives (fun p => p.1.1.Holds flat m ∧ p.2.length = e.rules.length ∧ ∀ nodes ∈ p.2,
              Forall₂ Node.Settles ((Collection.offered.flatMap (Filing.held fs)).map (·.2)) nodes)
            (e.processNoting source locator timing))
        ∧ ∀ s, e.statistics = .ok s → s.total = fs.length ∧ s.total = (s.kinds.map (·.2)).sum := by
  obtain ⟨fs, hfs, hm⟩ := Model.exists_filings h
  have hfits := Flat.fits_of_filings hfs
  have hoffered : m.offered = (Collection.offered.flatMap (Filing.held fs)).map (·.2) :=
    hm ▸ Model.offered_ofFilings hfits
  have hperm := Filing.offered_perm hfits
  refine ⟨fs, hfs, hm ▸ Model.collections_ofFilings hfits, hperm, ?_, ?_, fun e => ?_, fun e he => ⟨?_, ?_⟩⟩
  · exact Filing.held_perm hfits fun kind => by cases kind <;> decide
  · exact Filing.held_perm hfits fun kind => by cases kind <;> decide
  · obtain ⟨e', he'⟩ : ∃ e', e.load flat = .ok e' := ⟨_, by rw [Engine.load, h]; rfl⟩
    exact ⟨e', he', Engine.holds_of_load h he'⟩
  · intro source locator timing
    refine ⟨(Engine.fst_processNoting source locator timing e).symm, ?_⟩
    rw [← hoffered]
    exact Engine.offers_of_processNoting source locator timing h he
  · intro s hs
    obtain ⟨htotal, hsum⟩ := Engine.sum_kinds_of_statistics hs
    refine ⟨?_, hsum.symm⟩
    calc s.total = m.offered.length := htotal.trans he.nodes.length_eq.symm
      _ = ((Collection.offered.flatMap (Filing.held fs)).map (·.1)).length := by simp only [hoffered, length_map]
      _ = fs.length := by rw [hperm.length_eq, length_range]

/-- A view with two event handlers that are equal in all they hold, and an expression binding with an expression
behind it. -/
def sampleFlat : Flat :=
  [("r.meta.name", .str "Page"), ("r.events.dom.onKey.config.script", .str "f()"),
    ("r.events.dom.onKey.script", .str "f()"), ("r.a.binding.type", .str "expr"),
    ("r.a.binding.transforms[0].type", .str "expression"), ("r.a.binding.transforms[0].expression", .str "1 + 1")]

/-- In that view five nodes are made; both event handlers are offered, and both expressions. -/
theorem every_node_offered_once_in_sample :
    ∃ m fs, Model.build sampleFlat = .ok m ∧ sampleFlat.filings = .ok fs ∧ fs.length = 5
      ∧ ((Collection.offered.flatMap (Filing.held fs)).map (·.1)).Perm (List.range 5)
      ∧ (Filing.held fs .expressionBindings).map (·.1) = [1, 2]
      ∧ (Filing.held fs .eventHandlers).map (·.1) = [3, 4] := by
  obtain ⟨m, hm, -⟩ : ∃ m, Model.build sampleFlat = .ok m ∧ True := by decide +kernel
  obtain ⟨fs, hfs, hlength, hexpressions, hevents⟩ : ∃ fs, sampleFlat.filings = .ok fs ∧ fs.length = 5
      ∧ (Filing.held fs .expressionBindings).map (·.1) = [1, 2]
      ∧ (Filing.held fs .eventHandlers).map (·.1) = [3, 4] := by decide +kernel
  obtain ⟨fs', hfs', -, hperm, -⟩ := every_node_offered_once hm
  obtain rfl : fs = fs' := Except.ok.inj (hfs.symm.trans hfs')
  exact ⟨m, fs, hm, hfs, hlength, hlength ▸ hperm, hexpressions, hevents⟩

end ViewLint
