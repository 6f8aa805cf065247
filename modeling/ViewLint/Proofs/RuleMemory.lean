import ViewLint.Engine.Rule
import ViewLint.Proofs.Sessions

/-!
# What rules remember

From view to view a rule may remember the locator that was given last, that it has handled a view, or what
it has gathered. Most rules take nothing from an earlier view but the locator.

* `Check.isPerFile`: whether a rule gathers nothing from view to view.
* **`Check.inspect_forget`**: such a rule says about a view what a new one says that is given the locator.
-/

namespace ViewLint

open Session

/-! ## Names and locators -/

namespace NamePattern.Config

variable {context : Option FixContext} {c : Config} {nodes : List Node} {findings : List Finding} {fixes : List Fix}

/-- A locator decides about the fixes for a node, and about faults that come with them. -/
theorem inspect_none {n : Node} {r : List Finding × List Fix}
    (h : c.inspect context n = .ok r) : c.inspect none n = .ok (r.1, []) := by
  unfold inspect at h ⊢
  dsimp only at h ⊢
  generalize (!([NodeKind.component, .messageHandler, .customMethod, .property].contains n.kind) ||
    isPresetProperty n) = skipped at h ⊢
  cases skipped with
  | true =>
    cases h
    rfl
  | false =>
    cases hname : (nameOf n).isTrue with
    | false =>
      rw [hname] at h
      cases h
      rfl
    | true =>
      rw [hname] at h
      obtain ⟨severity, hseverity, h⟩ := bind_eq_ok.mp h
      obtain ⟨messages, hmessages, h⟩ := bind_eq_ok.mp h
      refine bind_eq_ok.mpr ⟨severity, hseverity, bind_eq_ok.mpr ⟨messages, hmessages, ?_⟩⟩
      cases context with
      | none =>
        cases h
        rfl
      | some context =>
        dsimp only at h
        split at h
        · obtain ⟨fixes, -, h⟩ := bind_eq_ok.mp h
          cases h
          rfl
        · cases h
          rfl

theorem check_none (h : c.check context nodes = .ok (findings, fixes)) : c.check none nodes = .ok (findings, []) := by
  obtain ⟨selected, hselected, h⟩ := bind_eq_ok.mp h
  obtain ⟨results, hresults, h⟩ := bind_eq_ok.mp h
  cases h
  have hnone := mapM_eq_ok_iff.mpr (List.forall₂_map_right_iff.mpr
    ((mapM_eq_ok_iff.mp hresults).imp fun n r => inspect_none))
  refine bind_eq_ok.mpr ⟨selected, hselected, bind_eq_ok.mpr ⟨_, hnone, ?_⟩⟩
  simp [List.flatMap_map, pure, Except.pure]

end NamePattern.Config

/-! ## Memory -/

namespace Check

/-- Whether a rule gathers nothing from view to view. -/
def isPerFile : Check → Bool
  | .scripts .. | .bindingCount .. => false
  | _ => true

/-- The rule with nothing remembered. -/
def forget : Check → Check
  | .scripts c _ => .scripts c {}
  | .names c _ => .names c none
  | .unused c _ => .unused c false
  | .bindingCount c _ => .bindingCount c []
  | check => check

/-- The locator that a rule remembers, if it is one that does, is a given one. -/
def Remembers (last : Option Locator) : Check → Prop
  | .names _ locator => locator = last
  | _ => True

variable {check check' : Check} {last locator : Option Locator} {flat : Flat} {nodes : List Node}
  {findings : List Finding} {fixes : List Fix}

@[simp] theorem forget_name (check : Check) : check.forget.name = check.name := by cases check <;> rfl

@[simp] theorem isPerFile_forget (check : Check) : check.forget.isPerFile = check.isPerFile := by
  cases check <;> rfl

theorem name_of_forget (h : check'.forget = check.forget) : check'.name = check.name := by
  rw [← forget_name, h, forget_name]

theorem isPerFile_of_forget (h : check'.forget = check.forget) : check'.isPerFile = check.isPerFile := by
  rw [← isPerFile_forget, h, isPerFile_forget]

theorem remembers_forget (check : Check) : check.forget.Remembers none := by
  cases check <;> trivial

theorem withLocator_or (h : check.Remembers last) (locator : Option Locator) :
    check.withLocator locator = check.withLocator (locator.or last) := by
  cases check <;> try rfl
  cases h
  cases locator <;> cases last <;> rfl

theorem remembers_withLocator (h : check.Remembers last) (locator : Option Locator) :
    (check.withLocator locator).Remembers (locator.or last) := by
  cases check <;> try trivial
  cases h
  cases locator <;> rfl

/-- **What handling a view does to a rule**: only its memory changes, the locator stays, there are no fixes
without one, and the rule knows that it has handled a view. -/
theorem of_inspect (h : check.inspect flat nodes = .ok (check', findings, fixes)) :
    check'.forget = check.forget ∧ (∀ last, check.Remembers last → check'.Remembers last) ∧
      (check.Remembers none → fixes = []) ∧ ∀ c, check' ≠ .unused c false := by
  cases check with
  | scripts c st =>
    cases h
    exact ⟨rfl, fun _ => id, fun _ => rfl, nofun⟩
  | names c locator =>
    obtain ⟨⟨found, made⟩, hcheck, heq⟩ := bind_eq_ok.mp h
    cases heq
    refine ⟨rfl, fun _ => id, fun hnone => ?_, nofun⟩
    cases hnone
    -- Without a locator the check is the one of `check_none`, which makes no fixes.
    exact (Prod.mk.inj (Except.ok.inj (hcheck.symm.trans (NamePattern.Config.check_none hcheck)))).2
  | _ =>
    obtain ⟨found, -, heq⟩ := bind_eq_ok.mp h
    cases heq
    exact ⟨rfl, fun _ => id, fun _ => rfl, nofun⟩

theorem forget_of_inspect (h : (check.withLocator locator).inspect flat nodes = .ok (check', findings, fixes)) :
    check'.forget = check.forget :=
  (of_inspect h).1.trans (by cases check <;> rfl)

theorem inspect_forget (hfile : check.isPerFile = true) (h : check.Remembers last) (locator : Option Locator) :
    (check.withLocator locator).inspect flat nodes =
      (check.forget.withLocator (locator.or last)).inspect flat nodes := by
  rw [withLocator_or h]
  cases check <;> try rfl
  · cases hfile
  · cases h
    cases locator <;> cases last <;> rfl
  · cases hfile

/-- A new rule finds without a locator what it finds with one. -/
theorem inspect_of_locator (h : check.Remembers none)
    (hinspect : (check.withLocator locator).inspect flat nodes = .ok (check', findings, fixes)) :
    ∃ check'', (check.withLocator none).inspect flat nodes = .ok (check'', findings, []) := by
  cases check with
  | names c old =>
    cases h
    obtain ⟨⟨found, made⟩, hcheck, heq⟩ := bind_eq_ok.mp hinspect
    cases heq
    exact ⟨_, bind_eq_ok.mpr ⟨_, NamePattern.Config.check_none hcheck, rfl⟩⟩
  | _ =>
    obtain ⟨-, -, hfixes, -⟩ := of_inspect hinspect
    exact ⟨check', hfixes trivial ▸ hinspect⟩

end Check

namespace Rule

/-- The rule with nothing remembered and nothing found. -/
def forget (r : Rule) : Rule := { check := r.check.forget }

/-- A rule that has seen nothing. -/
def IsFresh (r : Rule) : Prop := r.forget = r

/-- A rule as it is made from settings. -/
def IsMade (r : Rule) : Prop :=
  ∃ name config action w w', create? name config = some action ∧ Session.runIn w action = (.ok r, w')

/-- A rule remembers a given locator, and without one it holds no fixes. -/
def Recalls (last : Option Locator) (r : Rule) : Prop := r.check.Remembers last ∧ (last = none → r.fixes = [])

variable {r : Rule} {last : Option Locator}

@[simp] theorem forget_name (r : Rule) : r.forget.name = r.name := Check.forget_name r.check

theorem IsFresh.recalls (h : r.IsFresh) : r.Recalls none := by
  rw [← h]
  exact ⟨Check.remembers_forget r.check, fun _ => rfl⟩

theorem process_eq (h : ∀ c st, r.check ≠ .scripts c st) (s : Subject) :
    r.process s = lift ((r.check.withLocator s.locator).inspect s.flat s.nodes) >>= fun p =>
      pure ({ check := p.1, findings := p.2.1, fixes := p.2.2 }, []) := by
  rw [process]
  split
  · next heq => exact absurd heq (h _ _)
  · rfl

/-- **A rule that is given no locator goes on with the last one.** -/
theorem process_or (h : r.check.Remembers last) (s : Subject) :
    r.process s = r.process { s with locator := s.locator.or last } := by
  by_cases hscripts : ∃ c st, r.check = .scripts c st
  · obtain ⟨c, st, hcheck⟩ := hscripts
    simp only [process, hcheck]
  · have hne : ∀ c st, r.check ≠ .scripts c st := fun c st heq => hscripts ⟨c, st, heq⟩
    rw [process_eq hne, process_eq hne, Check.withLocator_or h]

theorem recalls_of_process (h : r.Recalls last) (s : Subject) :
    Gives (fun p => p.1.Recalls (s.locator.or last)) (r.process s) := by
  by_cases hscripts : ∃ c st, r.check = .scripts c st
  · obtain ⟨c, st, hcheck⟩ := hscripts
    rw [process, hcheck]
    refine .after fun p => .pure ⟨trivial, fun hnone => h.2 ?_⟩
    exact (Option.or_eq_none_iff.mp hnone).2
  · rw [process_eq fun c st heq => hscripts ⟨c, st, heq⟩]
    refine .bind (.lift fun p hp => hp) fun p hp => .pure ?_
    have hgiven := Check.remembers_withLocator h.1 s.locator
    obtain ⟨-, hremembers, hfixes, -⟩ := Check.of_inspect hp
    exact ⟨hremembers _ hgiven, fun hnone => hfixes (hnone ▸ hgiven)⟩

theorem isFresh_of_lift {α : Type} {f : α → Check} (hf : ∀ a, (f a).forget = f a) (x : Except Fault α) :
    Gives IsFresh (do return { check := ← lift (x.map f) }) := by
  refine .bind (.lift fun check hcheck => hcheck) fun check hcheck => .pure ?_
  obtain ⟨a, -, rfl⟩ := map_eq_ok.mp hcheck
  exact congrArg (fun check => ({ check } : Rule)) (hf a)

theorem IsMade.isFresh (h : r.IsMade) : r.IsFresh := by
  obtain ⟨name, config, action, w, w', hcreate, hrun⟩ := h
  obtain ⟨maker, hmaker, rfl⟩ := Option.map_eq_some_iff.mp hcreate
  have hall : ∀ m ∈ makers, Gives IsFresh (m.2 config) := by
    intro m hm
    simp only [makers, List.mem_cons, List.not_mem_nil, or_false] at hm
    rcases hm with rfl | rfl | rfl | rfl | rfl | rfl | rfl | rfl | rfl | rfl
    · exact .after fun c => .pure rfl
    · exact isFresh_of_lift (fun _ => rfl) _
    · exact .after fun _ => .after fun c => .pure rfl
    all_goals exact isFresh_of_lift (fun _ => rfl) _
  exact hall _ (Fields.mem_of_get?_eq_some hmaker) hrun

end Rule

end ViewLint
