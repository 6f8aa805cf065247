import Mathlib.Algebra.BigOperators.Group.List.Basic
import Mathlib.Algebra.GroupWithZero.Nat
import ViewLint.Proofs.BatchMessages
import ViewLint.Proofs.Places
import ViewLint.Proofs.ScriptLines

/-!
# Violations that are counted and violations that are shown

Every violation is counted by a finding without text, and shown by a line of one of two texts. The
severity that is set for its category decides both, but a value that is no severity is read in two ways.

* **`Config.shown_as_counted_iff`**: when as many violations are shown as are counted.
* `Config.not_always_shown_as_counted`: a violation that counts as an error and is shown as a warning.
-/

namespace ViewLint

open List Text Session

theorem Text.splitOn_append_of_not_mem {stop : CodePoint} {a : Text} (h : stop ∉ a) (s : Text) :
    ∃ first rest, splitOn [stop] s = first :: rest ∧ splitOn [stop] (a ++ s) = (a ++ first) :: rest := by
  obtain ⟨first, rest, hs⟩ := exists_cons_of_ne_nil (splitOn_ne_nil [stop] s)
  refine ⟨first, rest, hs, ?_⟩
  induction a with
  | nil => exact hs
  | cons c a ih =>
    obtain ⟨hc, ha⟩ := not_or.mp (mem_cons.not.mp h)
    rw [cons_append, splitOn_cons (by simpa using hc), ih ha]
    rfl

namespace ScriptCheck

variable {c : Config} {vs : List Violation} {shown : Option Config.Formatted} {s : Severity}

/-! ## Lines that show a violation -/

def isItem (line : Text) : Bool := Text.startsWith line "      • "

/-- How many lines of a text show a violation. -/
def items (text : Text) : Nat := (rows text).countP isItem

theorem items_item (text : Text) : items ("      • " ++ text) = (rows text).tail.countP isItem + 1 := by
  have hstop : .char '\n' ∉ Text.ofString "      • " := by decide
  obtain ⟨first, rest, hfirst, hrows⟩ := Text.splitOn_append_of_not_mem hstop text
  have hitem : isItem ("      • " ++ first) = true := isPrefixOf_iff_prefix.mpr (prefix_append _ _)
  have htail : (rows text).tail = rest := congrArg tail hfirst
  calc items ("      • " ++ text)
      = countP isItem (("      • " ++ first) :: rest) := congrArg (countP isItem) hrows
    _ = (rows text).tail.countP isItem + 1 := by rw [countP_cons_of_pos hitem, htail]

theorem items_joined (lines : List Text) : (Config.joined lines).elim 0 items = (lines.map items).sum := by
  cases lines with
  | nil => rfl
  | cons line lines =>
    have hrows := congrArg (countP isItem) (rows_join (cons_ne_nil line lines))
    exact hrows.trans countP_flatMap

theorem items_header : ∀ x ∈ categories, items ("\n    Pylint - " ++ x.2 ++ " (" ++ [x.1] ++ "):") = 0 := by
  decide

namespace Config

/-- What is shown of a violation. -/
def shownText (c : Config) (v : Violation) : Text := c.shownKey v.key ++ ": " ++ v.summary

/-- How many further lines of what is shown of a violation look as if they showed another one. -/
def strays (c : Config) (v : Violation) : Nat := (rows (c.shownText v)).tail.countP isItem

/-- The severity under which the violations of a category are shown. -/
def shownAs (c : Config) (category : CodePoint) : Severity :=
  if (c.mapped category).toOption.any (·.equals (.str "error")) then .error else .warning

def Formatted.side (f : Formatted) : Severity → Option Text
  | .warning => f.warnings
  | .error => f.errors

/-- How many violations are shown under a severity. -/
def shownCount (shown : Option Formatted) (s : Severity) : Nat := ((shown.bind (·.side s)).elim 0 items)

def weigh (c : Config) (vs : List Violation) : Nat := (vs.map fun v => c.strays v + 1).sum

/-- The severity under which a group is shown. -/
def Group.side (g : Group) : Severity := if g.severity.equals (.str "error") then .error else .warning

theorem items_group {x : CodePoint × Text} (hx : x ∈ categories) (value : Json) (vs : List Violation) :
    ((⟨x.1, x.2, value, vs.map c.shownText⟩ : Group).lines.map items).sum = c.weigh vs := by
  rw [Group.lines, map_cons, sum_cons, items_header x hx, Nat.zero_add, map_map, map_map, weigh]
  exact congrArg sum (map_congr_left fun v _ => items_item _)

theorem shown_of_grouped {groups : List Group} (h : c.grouped vs = .ok groups) (s : Severity) :
    ((groups.filter (·.side = s)).map fun g => (g.lines.map items).sum).sum
      = (((categories.filter fun x => vs.any (·.category == x.1)).filter fun x => c.shownAs x.1 = s).map fun x =>
          c.weigh (vs.filter (·.category == x.1))).sum := by
  have hpresent : ∀ x ∈ categories.filter fun x => vs.any (·.category == x.1), x ∈ categories :=
    fun x hx => (mem_filter.mp hx).1
  have hall := mapM_eq_ok_iff.mp h
  clear h
  generalize categories.filter (fun x => vs.any (·.category == x.1)) = present at hall hpresent
  induction hall with
  | nil => rfl
  | @cons x g present groups hg _ ih =>
    have ih := ih fun x hx => hpresent x (mem_cons_of_mem _ hx)
    obtain ⟨value, hvalue, hg⟩ := bind_eq_ok.mp hg
    have hitems := items_group (c := c) (hpresent x mem_cons_self) value (vs.filter (·.category == x.1))
    have hside : c.shownAs x.1 = if value.equals (.str "error") then .error else .warning := by
      rw [shownAs, hvalue]
      rfl
    obtain rfl : _ = g := Except.ok.inj hg
    by_cases hs : c.shownAs x.1 = s
    · rw [filter_cons_of_pos (by simpa [Group.side, ← hside] using hs), filter_cons_of_pos (by simpa using hs), map_cons,
        map_cons, sum_cons, sum_cons, ih]
      exact congrArg (· + _) hitems
    · rw [filter_cons_of_neg (by simpa [Group.side, ← hside] using hs), filter_cons_of_neg (by simpa using hs), ih]

theorem sum_present (p : CodePoint → Bool) (known : List (CodePoint × Text)) :
    (((known.filter fun x => vs.any (·.category == x.1)).filter fun x => p x.1).map fun x =>
        c.weigh (vs.filter (·.category == x.1))).sum
      = (known.map fun x => if p x.1 then c.weigh (vs.filter (·.category == x.1)) else 0).sum := by
  induction known with
  | nil => rfl
  | cons x known ih =>
    rw [map_cons, sum_cons, ← ih]
    by_cases hany : vs.any (·.category == x.1)
    · rw [filter_cons_of_pos (by simpa using hany)]
      by_cases hp : p x.1 <;> simp [hp]
    · have hnone : vs.filter (·.category == x.1) = [] := filter_eq_nil_iff.mpr fun v hv h =>
        hany (any_eq_true.mpr ⟨v, hv, h⟩)
      rw [filter_cons_of_neg (by simpa using hany), hnone]
      simp [weigh]

/-- Every violation of a known category is in one group. -/
theorem sum_by_category (hknown : ∀ v ∈ vs, v.IsKnown) (p : CodePoint → Bool) :
    (categories.map fun x => if p x.1 then c.weigh (vs.filter (·.category == x.1)) else 0).sum
      = c.weigh (vs.filter fun v => p v.category) := by
  induction vs with
  | nil => simp [weigh]
  | cons v vs ih =>
    have ih := ih fun v hv => hknown v (mem_cons_of_mem _ hv)
    have hweigh (q : Violation → Bool) : c.weigh ((v :: vs).filter q)
        = (if q v then c.strays v + 1 else 0) + c.weigh (vs.filter q) := by
      by_cases hq : q v <;> simp [weigh, hq]
    have hone : (categories.map fun x => if p x.1 then (if v.category == x.1 then c.strays v + 1 else 0) else 0).sum
        = if p v.category then c.strays v + 1 else 0 := by
      have hv := hknown v mem_cons_self
      simp only [Violation.IsKnown, categories, map_cons, map_nil, mem_cons, not_mem_nil, or_false] at hv
      obtain hv | hv | hv | hv | hv := hv <;> simp [categories, hv]
    rw [hweigh, ← ih, ← hone, ← sum_map_add]
    refine congrArg sum (map_congr_left fun x _ => ?_)
    rw [hweigh]
    split <;> rfl

theorem side_of_format (h : c.format vs = .ok shown) (s : Severity) : ∃ groups, c.grouped vs = .ok groups
      ∧ shownCount shown s = ((groups.filter (·.side = s)).map fun g => (g.lines.map items).sum).sum := by
  obtain ⟨groups, hgroups, h⟩ := bind_eq_ok.mp h
  refine ⟨groups, hgroups, ?_⟩
  split at h
  · next hnil =>
    cases h
    rw [isEmpty_iff.mp hnil]
    rfl
  · cases h
    have hlines (chosen : List Group) : (joined (chosen.flatMap Group.lines)).elim 0 items
        = (chosen.map fun g => (g.lines.map items).sum).sum := by
      rw [items_joined, map_flatMap, flatMap_def, sum_flatten, map_map]
      rfl
    cases s with
    | warning | error =>
      refine (hlines _).trans (congrArg (fun gs : List Group => (gs.map fun g => (g.lines.map items).sum).sum) ?_)
      refine filter_congr fun g _ => ?_
      rw [Group.side]
      split <;> simp_all

theorem shownCount_of_format (h : c.format vs = .ok shown) (hknown : ∀ v ∈ vs, v.IsKnown) (s : Severity) :
    shownCount shown s = c.weigh (vs.filter fun v => c.shownAs v.category = s) := by
  obtain ⟨groups, hgroups, hcount⟩ := side_of_format h s
  rw [hcount, shown_of_grouped hgroups s, sum_present fun category => decide (c.shownAs category = s)]
  exact sum_by_category hknown fun category => decide (c.shownAs category = s)

/-! ## Findings that count a violation -/

theorem message_ne_nil_of_checkIndent {key text : Text} {f : Finding} (h : f ∈ c.checkIndent key text) :
    f.message ≠ [] := by
  have habout (complaint : Text) : c.shownKey key ++ Text.ofString ": " ++ complaint ≠ [] := by simp [Text.ofString]
  rw [checkIndent] at h
  split at h
  · cases h
  · obtain h | h := mem_append.mp h
    all_goals
      repeat' split at h
      all_goals first | cases h; done | rw [mem_singleton.mp h]; exact habout _

/-- How many violations are counted with a severity. -/
def countedCount (st : State) (s : Severity) : Nat := (Finding.messages s st.findings).count []

theorem count_messages (texts : List (Text × Text)) (counted : List Severity) (s : Severity) :
    (Finding.messages s (texts.flatMap (fun t => c.checkIndent t.1 t.2) ++ counted.map (⟨·, ""⟩))).count []
      = counted.count s := by
  have hindent : (Finding.messages s (texts.flatMap fun t => c.checkIndent t.1 t.2)).count [] = 0 := by
    refine count_eq_zero.mpr fun hmem => ?_
    obtain ⟨f, hf, hnil⟩ := mem_map.mp hmem
    obtain ⟨t, -, hf⟩ := mem_flatMap.mp (mem_filter.mp hf).1
    exact message_ne_nil_of_checkIndent hf hnil
  have hempty : (Finding.messages s (counted.map (⟨·, ""⟩))).count [] = counted.count s := by
    induction counted with
    | nil => rfl
    | cons s' counted ih =>
      by_cases hs : s' = s <;> simp_all [Finding.messages, Text.ofString]
  rw [Finding.messages, filter_append, map_append, count_append]
  exact (congrArg₂ (· + ·) hindent hempty).trans (Nat.zero_add _)

theorem counted_of_process (hfile : c.batch = false) (st : State) (stamp : Nat) (nodes : List Node) :
    Gives (fun p => (∀ v ∈ p.1.violations, v.IsKnown) ∧ ∃ counted, p.1.violations.mapM c.countedAs = .ok counted
      ∧ ∀ s, countedCount p.1 s = counted.count s) (c.process st stamp nodes) := by
  have hcounted {st₀ st' : State} (hviolations : st₀.violations = []) (hfindings : st₀.findings = [])
      (h : c.Extends st₀ st') : (∀ v ∈ st'.violations, v.IsKnown) ∧ ∃ counted,
        st'.violations.mapM c.countedAs = .ok counted ∧ ∀ s, countedCount st' s = counted.count s := by
    obtain ⟨new, texts, counted, hnew, hknown, hfound, hmapped⟩ := h
    rw [hviolations, nil_append] at hnew
    rw [hfindings, nil_append] at hfound
    refine ⟨hnew ▸ hknown, counted, hnew ▸ hmapped hviolations, fun s => ?_⟩
    rw [countedCount, hfound, count_messages]
  unfold process
  simp only [hfile, Bool.false_eq_true, if_false, Bool.false_or]
  refine .after fun chosen => ?_
  split
  · exact .pure (hcounted rfl rfl (Extends.refl c _))
  · exact .bind (c.extends_of_checkScripts _ _) fun p hp => .pure (hcounted rfl rfl hp)

/-! ## Counted and shown -/

/-- Whether a severity is set for a category, or nothing is. -/
def NamesSeverity (c : Config) (category : CodePoint) : Prop :=
  ∃ value, c.mapped category = .ok value ∧ (Severity.ofJson? value).isSome = true

theorem counted_cases {v : Violation} {s : Severity} (h : c.countedAs v = .ok s) :
    (s = c.shownAs v.category ↔ c.scope.severity = .warning ∨ c.NamesSeverity v.category)
      ∧ (s = .warning → c.shownAs v.category = .warning) := by
  obtain ⟨value, hvalue, h⟩ := bind_eq_ok.mp h
  cases h
  have hnames : c.NamesSeverity v.category ↔ (Severity.ofJson? value).isSome = true :=
    ⟨fun hnames => by
      obtain ⟨value', hvalue', hsome⟩ := hnames
      rwa [← Except.ok.inj (hvalue'.symm.trans hvalue)], fun hsome => ⟨value, hvalue, hsome⟩⟩
  have hshown : c.shownAs v.category = if value.equals (.str "error") then .error else .warning := by
    rw [shownAs, hvalue]
    rfl
  rw [hnames, hshown, Severity.ofJson?]
  by_cases hwarning : value.equals (.str "warning") = true
  · have herror : value.equals (.str "error") = false := by
      rw [(Locator.equals_str_iff _ _).mp hwarning]
      decide
    simp [hwarning, herror]
  · rw [if_neg hwarning]
    split
    · simp
    · cases c.scope.severity <;> simp

theorem weigh_cons (c : Config) (v : Violation) (vs : List Violation) :
    c.weigh (v :: vs) = c.strays v + 1 + c.weigh vs := sum_cons

theorem length_le_weigh (c : Config) (vs : List Violation) : vs.length ≤ c.weigh vs := by
  induction vs with
  | nil => exact Nat.zero_le _
  | cons v vs ih =>
    rw [length_cons, weigh_cons]
    omega

theorem strays_of_weigh_eq (h : c.weigh vs = vs.length) : ∀ v ∈ vs, c.strays v = 0 := by
  induction vs with
  | nil => exact forall_mem_nil _
  | cons v vs ih =>
    have hle := c.length_le_weigh vs
    rw [length_cons, weigh_cons] at h
    exact forall_mem_cons.mpr ⟨by omega, ih (by omega)⟩

theorem weigh_of_strays (h : ∀ v ∈ vs, c.strays v = 0) : c.weigh vs = vs.length := by
  induction vs with
  | nil => rfl
  | cons v vs ih =>
    obtain ⟨hv, hvs⟩ := forall_mem_cons.mp h
    rw [weigh_cons, hv, ih hvs, length_cons]
    omega

/-- Of two conditions of which one implies the other, each holds as often only if both say the same. -/
theorem imp_of_countP_eq {α : Type} {p q : α → Bool} {xs : List α} (hpq : ∀ x ∈ xs, p x = true → q x = true)
    (hcount : xs.countP p = xs.countP q) : ∀ x ∈ xs, q x = true → p x = true := by
  have hall : (xs.filter q).countP p = (xs.filter q).length := by
    rw [countP_filter, ← countP_eq_length_filter, ← hcount]
    exact countP_congr fun x hx => by simpa using hpq x hx
  exact fun x hx hq => countP_eq_length.mp hall x (mem_filter.mpr ⟨hx, hq⟩)

theorem counts_agree_iff {f g : Violation → Severity} (hfg : ∀ v ∈ vs, f v = .warning → g v = .warning) :
    (∀ s, (vs.map f).count s = c.weigh (vs.filter fun v => g v = s)) ↔ ∀ v ∈ vs, c.strays v = 0 ∧ f v = g v := by
  have hcount (s : Severity) : (vs.map f).count s = vs.countP fun v => f v = s := by
    rw [count, countP_map]
    exact countP_congr fun v _ => by simp
  have hboth (h : Violation → Severity) : (vs.countP fun v => h v = .warning) + (vs.countP fun v => h v = .error)
      = vs.length := by
    rw [length_eq_countP_add_countP fun v => decide (h v = .warning)]
    exact congrArg _ (countP_congr fun v _ => by cases h v <;> simp)
  simp only [hcount]
  constructor
  · intro h
    have hle (s : Severity) := countP_eq_length_filter ▸ c.length_le_weigh (vs.filter fun v => g v = s)
    have hf := hboth f
    have hg := hboth g
    rw [h, h] at hf
    have hwarning := hle .warning
    have herror := hle .error
    have hstrays (s : Severity) : c.weigh (vs.filter fun v => g v = s) = (vs.filter fun v => g v = s).length := by
      rw [← countP_eq_length_filter]
      cases s <;> omega
    have hsame := imp_of_countP_eq (p := fun v => decide (f v = .warning)) (q := fun v => decide (g v = .warning))
      (by simpa using hfg) (by rw [h, hstrays, ← countP_eq_length_filter])
    intro v hv
    refine ⟨strays_of_weigh_eq (hstrays (g v)) v (mem_filter.mpr ⟨hv, decide_eq_true rfl⟩), ?_⟩
    have hto := hfg v hv
    have hfrom := hsame v hv
    cases hfv : f v <;> cases hgv : g v <;> simp_all
  · intro h s
    rw [weigh_of_strays fun v hv => (h v (mem_filter.mp hv).1).1, ← countP_eq_length_filter]
    exact countP_congr fun v hv => by rw [(h v hv).2]

/-- **As many violations are shown as are counted**, of both severities, in the run of a rule for one file, if and only
if no further line of what is shown looks as if it showed a violation, and the category of every violation has
a severity. A value that is no severity counts as the severity of the rule and is shown as a warning, which is the
same for a rule of warnings. -/
theorem shown_as_counted_iff (hfile : c.batch = false) {st st' : State} {stamp : Nat} {nodes : List Node}
    {waiting : List Waiting} {w w' : Workspace} (hrun : runIn w (c.process st stamp nodes) = (.ok (st', waiting), w')) :
    ∃ shown, c.format st'.violations = .ok shown
      ∧ ((∀ s, countedCount st' s = shownCount shown s) ↔ ∀ v ∈ st'.violations,
          c.strays v = 0 ∧ (c.scope.severity = .warning ∨ c.NamesSeverity v.category)) := by
  obtain ⟨hknown, counted, hcounted, hcount⟩ := counted_of_process hfile st stamp nodes hrun
  have hmapped {v : Violation} (hv : v ∈ st'.violations) : ∃ s, c.countedAs v = .ok s :=
    (exists_of_mapM_ok hcounted hv).imp fun s hs => hs.2
  obtain ⟨groups, hgroups⟩ : ∃ groups, c.grouped st'.violations = .ok groups := by
    refine exists_mapM_ok fun x hx => ?_
    obtain ⟨v, hv, hcategory⟩ := any_eq_true.mp (mem_filter.mp hx).2
    obtain ⟨s, hs⟩ := hmapped hv
    obtain ⟨value, hvalue, -⟩ := bind_eq_ok.mp hs
    rw [beq_iff_eq.mp hcategory] at hvalue
    exact ⟨_, bind_eq_ok.mpr ⟨value, hvalue, rfl⟩⟩
  obtain ⟨shown, hshown⟩ : ∃ shown, c.format st'.violations = .ok shown := by
    by_cases hnil : groups.isEmpty = true
    · exact ⟨none, bind_eq_ok.mpr ⟨groups, hgroups, if_pos hnil⟩⟩
    · exact ⟨_, bind_eq_ok.mpr ⟨groups, hgroups, if_neg hnil⟩⟩
  refine ⟨shown, hshown, ?_⟩
  have hall := mapM_eq_ok_iff.mp hcounted
  have hmap : st'.violations.map (fun v => (c.countedAs v).toOption.getD .warning) = counted := by
    rw [← forall₂_eq_eq_eq, forall₂_map_left_iff]
    exact hall.imp fun v s hs => by rw [hs]; rfl
  have hcases {v : Violation} (hv : v ∈ st'.violations) := counted_cases (c := c) (v := v)
    (s := (c.countedAs v).toOption.getD .warning) (by obtain ⟨s, hs⟩ := hmapped hv; rw [hs]; rfl)
  simp only [hcount, shownCount_of_format hshown hknown, ← hmap]
  rw [counts_agree_iff fun v hv => (hcases hv).2]
  exact forall₂_congr fun v hv => and_congr_right' (hcases hv).1

/-- A rule of errors that sets something else for warnings. -/
def informing : Config where
  scope := { targets := .kinds NodeKind.scripts, severity := .error }
  settings := none
  debug := false
  batch := false
  debugDirectory := .null
  mapping := .object [("W", .str "info")]

def idle : Node := ⟨"root.m", .script ⟨.str "\timport os", .messageHandler .null .null⟩⟩

/-- A script checker that warns of an import. -/
def oneWarning : Workspace where
  store := ⟨[]⟩
  cwd := []
  replies := [.output "draft.py:11:0: W0611: Unused import os (unused-import)\n"]

theorem counts_oneWarning : ∃ st waiting w shown,
    runIn oneWarning (informing.process {} 0 [idle]) = (.ok (st, waiting), w) ∧ informing.format st.violations = .ok shown
      ∧ countedCount st .error = 1 ∧ shownCount shown .error = 0 := by
  have hrun : ∃ p w, runIn oneWarning (informing.process {} 0 [idle]) = (.ok p, w) ∧ ∃ shown,
      informing.format p.1.violations = .ok shown ∧ countedCount p.1 .error = 1 ∧ shownCount shown .error = 0 := by
    decide +kernel
  obtain ⟨⟨st, waiting⟩, w, hprocess, shown, hshown, hcounts⟩ := hrun
  exact ⟨st, waiting, w, shown, hprocess, hshown, hcounts⟩

/-- A warning counts as an error and is shown among the warnings. -/
theorem not_always_shown_as_counted : ¬ ∀ (c : Config) (nodes : List Node) (w : Workspace), c.batch = false →
    ∀ st waiting w' shown, runIn w (c.process {} 0 nodes) = (.ok (st, waiting), w') →
      c.format st.violations = .ok shown → ∀ s, countedCount st s = shownCount shown s := by
  intro hall
  obtain ⟨st, waiting, w, shown, hrun, hshown, hcounted, hnone⟩ := counts_oneWarning
  have hsame := hall informing [idle] oneWarning rfl st waiting w shown hrun hshown .error
  rw [hcounted, hnone] at hsame
  cases hsame

theorem shown_as_counted_iff_oneWarning : informing.batch = false ∧ ∃ st waiting w shown,
    runIn oneWarning (informing.process {} 0 [idle]) = (.ok (st, waiting), w) ∧ informing.format st.violations = .ok shown
      ∧ ((∀ s, countedCount st s = shownCount shown s) ↔ ∀ v ∈ st.violations,
          informing.strays v = 0 ∧ (informing.scope.severity = .warning ∨ informing.NamesSeverity v.category)) := by
  obtain ⟨st, waiting, w, -, hrun, -⟩ := counts_oneWarning
  obtain ⟨shown, hshown, hiff⟩ := shown_as_counted_iff rfl hrun
  exact ⟨rfl, st, waiting, w, shown, hrun, hshown, hiff⟩

end Config

end ScriptCheck

end ViewLint
