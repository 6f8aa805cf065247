import ViewLint.Proofs.NodeCollections

/-!
# Nodes that concern a rule

The statistics of a view count the nodes that rules are offered. The analysis of the rules goes through all
collections, where bindings and scripts stand twice.

* `Engine.isTarget`: whether a node has one of the kinds that a rule is for.
* `Model.countP_allNodes`: the collections hold what rules are offered, and the bindings and scripts once more.
* **`Engine.impact_counts_twice`**: the counts of the statistics, of the analysis and of the nodes offered.
-/

namespace ViewLint

open List

namespace Engine

/-- Whether a node has one of the kinds that a rule is for; a rule that names no kinds is for all of them. -/
def isTarget (r : Rule) (n : Node) : Bool :=
  !isSelective r || match r.check.scope.targets with
    | .kinds ks => ks.contains n.kind
    | .other _ => false

variable {r : Rule} {nodes nodes' mine : List Node} {names : List Text}

theorem countP_of_targeted (hr : isSelective r = true) (hnames : targetNames r = .ok names)
    (h : targeted r nodes = .ok mine) : mine.length = nodes.countP (isTarget r) := by
  rw [targetNames] at hnames
  rw [targeted] at h
  cases htargets : r.check.scope.targets with
  | other v =>
    rw [htargets, Targets.names] at hnames
    split at hnames <;> cases hnames
  | kinds ks =>
    have hmine : nodes.filterM (fun n => (Targets.kinds ks).admits n.kind) =
        .ok (nodes.filter fun n => ks.isEmpty || ks.contains n.kind) := filterM_of_ok fun n _ => rfl
    rw [htargets, hmine] at h
    cases h
    rw [← countP_eq_length_filter]
    have hne : ks.isEmpty = false := by simpa [isSelective, htargets] using hr
    exact countP_congr fun n _ => by simp [isTarget, hr, htargets, hne]

theorem count_of_coverage {c : Coverage} (h : coverage r nodes = .ok c) : c.count = nodes.countP (isTarget r) := by
  rw [coverage] at h
  by_cases hr : isSelective r = true
  · rw [if_neg (by simp [hr])] at h
    obtain ⟨mine, hmine, h⟩ := bind_eq_ok.mp h
    obtain ⟨names, hnames, h⟩ := bind_eq_ok.mp h
    cases h
    exact countP_of_targeted hr hnames hmine
  · rw [if_pos (by simp [hr])] at h
    cases h
    exact (countP_eq_length.mpr fun n _ => by simp [isTarget, hr]).symm

theorem count_of_impact {i : Impact} (h : impact r nodes = .ok i) : i.count = nodes.countP (isTarget r) := by
  rw [impact] at h
  by_cases hr : isSelective r = true
  · rw [if_neg (by simp [hr])] at h
    obtain ⟨mine, hmine, h⟩ := bind_eq_ok.mp h
    obtain ⟨names, hnames, h⟩ := bind_eq_ok.mp h
    obtain ⟨details, -, h⟩ := bind_eq_ok.mp h
    cases h
    exact countP_of_targeted hr hnames hmine
  · rw [if_pos (by simp [hr])] at h
    cases h
    exact (countP_eq_length.mpr fun n _ => by simp [isTarget, hr]).symm

theorem countP_settles (h : Forall₂ Node.Settles nodes nodes') (r : Rule) :
    nodes'.countP (isTarget r) = nodes.countP (isTarget r) := by
  induction h with
  | nil => rfl
  | cons hn _ ih => rw [countP_cons, countP_cons, ih, isTarget, hn.kind_eq, ← isTarget]

end Engine

/-- The collections hold what rules are offered, and the bindings and scripts once more. -/
theorem Model.countP_allNodes (m : Model) (p : Node → Bool) :
    m.allNodes.countP p = m.offered.countP p + (m.bindings ++ m.scripts).countP p := by
  simp [allNodes, collections, offered, offeredKinds, nodesOf, NodeKind.scripts]
  omega

namespace Engine

variable {e : Engine} {flat : Flat} {m : Model} {r : Rule}

theorem Holds.countP_allNodes (h : e.Holds flat m) (r : Rule) :
    e.allNodes.countP (isTarget r) =
      m.offered.countP (isTarget r) + (m.bindings ++ m.scripts).countP (isTarget r) := by
  obtain ⟨m', hm', hsettles⟩ := h.settles
  rw [allNodes, hm', Option.map_some, Option.getD_some, Model.countP_allNodes, countP_settles hsettles.offered,
    countP_append, countP_append, countP_settles hsettles.scripts, hsettles.bindings]

theorem exists_entry {α : Type} {f : Rule → Except Fault α} {rules : List Rule} {table : List (Text × α)}
    (hnames : (rules.map Rule.name).Nodup) (h : rules.mapM (fun r => do return (r.name, ← f r)) = .ok table)
    (hr : r ∈ rules) : ∃ a, f r = .ok a ∧ Fields.get? table r.name = some a := by
  have hkeys : table.map (·.1) = rules.map Rule.name := by
    have hall := mapM_eq_ok_iff.mp h
    clear h hr hnames
    induction hall with
    | nil => rfl
    | cons hentry _ ih =>
      obtain ⟨a, -, hentry⟩ := bind_eq_ok.mp hentry
      cases hentry
      rw [map_cons, map_cons, ih]
  obtain ⟨entry, hentry, hf⟩ := exists_of_mapM_ok h hr
  obtain ⟨a, ha, hf⟩ := bind_eq_ok.mp hf
  cases hf
  exact ⟨a, ha, Fields.get?_of_nodup (hkeys ▸ hnames) hentry⟩

/-- **The analysis counts bindings and scripts twice.** -/
theorem impact_counts_twice (hm : Model.build flat = .ok m) (he : e.Holds flat m)
    (hnames : (e.rules.map Rule.name).Nodup) {s : Statistics} (hs : e.statistics = .ok s)
    {impacts : List (Text × Impact)} (ha : e.analysis = .ok impacts) (hr : r ∈ e.rules) :
    ∃ c i, Fields.get? s.coverage r.name = some c ∧ Fields.get? impacts r.name = some i
      ∧ (∀ source locator timing, e.process source locator timing = Prod.fst <$> e.processNoting source locator timing
        ∧ Session.Gives (fun p => p.2.length = e.rules.length
          ∧ ∀ nodes ∈ p.2, nodes.countP (isTarget r) = c.count) (e.processNoting source locator timing))
      ∧ i.count = c.count + (m.bindings ++ m.scripts).countP (isTarget r)
      ∧ (i.count = c.count ↔ ∀ n ∈ m.bindings ++ m.scripts, isTarget r n = false) := by
  obtain ⟨types, -, hs⟩ := bind_eq_ok.mp hs
  obtain ⟨coverage, hcoverage, hs⟩ := bind_eq_ok.mp hs
  cases hs
  obtain ⟨c, hc, hget⟩ := exists_entry hnames hcoverage hr
  obtain ⟨i, hi, hget'⟩ := exists_entry hnames ha hr
  have hcount : c.count = m.offered.countP (isTarget r) :=
    (count_of_coverage hc).trans (countP_settles he.nodes r)
  have htwice : i.count = c.count + (m.bindings ++ m.scripts).countP (isTarget r) := by
    rw [count_of_impact hi, he.countP_allNodes, hcount]
  refine ⟨c, i, hget, hget', fun source locator timing => ⟨(fst_processNoting source locator timing e).symm, ?_⟩,
    htwice, ?_⟩
  · intro w p w' hrun
    obtain ⟨-, hlength, hoffers⟩ := offers_of_processNoting source locator timing hm he hrun
    exact ⟨hlength, fun nodes hnodes => (countP_settles (hoffers nodes hnodes) r).trans hcount.symm⟩
  · rw [htwice, Nat.add_eq_left, countP_eq_zero]
    simp

/-- The rule for polling intervals, which is for bindings, and an engine that holds a view with two of them. -/
def polling : Rule := ⟨.polling ⟨{ targets := .kinds NodeKind.bindings, severity := .error }, .int 10000⟩, [], []⟩

def withPolling (m : Model) : Engine := { rules := [polling], flat := sampleFlat, model := some m }

theorem impact_counts_twice_withPolling : ∃ m s impacts c i, Model.build sampleFlat = .ok m
    ∧ (withPolling m).statistics = .ok s ∧ (withPolling m).analysis = .ok impacts
    ∧ Fields.get? s.coverage polling.name = some c ∧ Fields.get? impacts polling.name = some i
    ∧ c.count = 2 ∧ i.count = 4 := by
  obtain ⟨m, hm, ⟨s, hs, hcount⟩, ⟨impacts, ha, -⟩, htwo⟩ : ∃ m, Model.build sampleFlat = .ok m
      ∧ (∃ s, (withPolling m).statistics = .ok s ∧ ∀ c ∈ Fields.get? s.coverage polling.name, c.count = 2)
      ∧ (∃ impacts, (withPolling m).analysis = .ok impacts ∧ True)
      ∧ (m.bindings ++ m.scripts).countP (isTarget polling) = 2 := by
    decide +kernel
  have he : (withPolling m).Holds sampleFlat m := ⟨rfl, m, rfl, .refl m⟩
  obtain ⟨c, i, hc, hi, -, htwice, -⟩ := impact_counts_twice hm he (nodup_singleton _) hs ha (mem_singleton.mpr rfl)
  exact ⟨m, s, impacts, c, i, hm, hs, ha, hc, hi, hcount c hc, by rw [htwice, hcount c hc, htwo]⟩

end Engine

end ViewLint
