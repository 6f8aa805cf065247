import ViewLint.Proofs.FixOrder
import ViewLint.Proofs.Proposals
import ViewLint.Proofs.Renaming
import ViewLint.Report.Console

/-!
# The number of fixes that a preview announces

Before fixes are applied, a listing of them says how many would be. It counts the fixes that the selection
admits, whether or not they lose a conflict.

* `Fix.Workplace.countP_admits`: every admitted fix is applied, loses a conflict or fails.
* `Console.announces_iff`: the number that a listing announces.
* **`NamePattern.Config.announced_with_losers`**: which fixes the announced number counts, and when it is right.
-/

namespace ViewLint

open List

namespace Fix

/-! ## Admitted fixes -/

def Selection.admits (sel : Selection) (fix : Fix) : Bool := sel.wants fix.rule && (!sel.safeOnly || fix.safe)

theorem Selection.admits_iff {sel : Selection} {fix : Fix} : sel.admits fix = true ↔ sel.Admits fix := by
  rw [admits, Admits]
  cases sel.safeOnly <;> simp

def Outcome.lost (o : Outcome) : List Nat := (o.skipped.filter fun s => s.2 == conflictReason).map (·.1)

theorem Outcome.lost_skip (o : Outcome) (i : Nat) (reason : Text) :
    (o.skip i reason).lost = o.lost ++ if reason = conflictReason then [i] else [] := by
  by_cases hreason : reason = conflictReason <;> simp [lost, Outcome.skip, filter_append, hreason]

theorem Outcome.mem_lost_iff {o : Outcome} {i : Nat} : i ∈ o.lost ↔ (i, conflictReason) ∈ o.skipped := by
  simp [lost]

/-- The number of fixes that were applied, lost a conflict or failed. -/
def Outcome.met (o : Outcome) : Nat := o.applied.length + o.lost.length + o.failed.length

theorem Outcome.met_apply (o : Outcome) (i : Nat) : (o.apply i).met = o.met + 1 := by
  simp only [met, lost, failed, Outcome.apply, length_append, length_singleton]
  omega

theorem Outcome.met_skip_conflict (o : Outcome) (i : Nat) : (o.skip i conflictReason).met = o.met + 1 := by
  have hfailure : isFailure conflictReason = false := rfl
  rw [met, lost_skip, failed_skip, if_pos rfl, hfailure, length_append, length_singleton]
  simp only [met, Outcome.skip, Bool.false_eq_true, if_false, append_nil]
  omega

theorem Outcome.met_skip_failure (o : Outcome) (i : Nat) (fault : Fault) :
    (o.skip i ("error: " ++ fault.message)).met = o.met + 1 := by
  have hfailure : isFailure ("error: " ++ fault.message) = true := rfl
  have hconflict : "error: " ++ fault.message ≠ conflictReason := fun heq => by
    rw [heq] at hfailure
    cases hfailure
  rw [met, lost_skip, failed_skip, if_neg hconflict, hfailure, if_pos rfl, append_nil, length_append,
    length_singleton]
  rfl

namespace Workplace

variable {σ : Type} {w : Workplace σ} {sel : Selection} {fixes : List Fix} {s t : σ} {o : Outcome}

theorem countP_admits (h : w.applyAll sel fixes s = .ok (t, o)) : fixes.countP sel.admits = o.met := by
  have hrun : (fixes.take fixes.length).countP sel.admits = o.met := by
    refine applyAll_induction (P := fun k o => (fixes.take k).countP sel.admits = o.met) rfl ?_ h
    intro k fix p q hfix ih hstep
    have hnext : (fixes.take (k + 1)).countP sel.admits = p.outcome.met + if sel.admits fix then 1 else 0 := by
      rw [take_add_one, hfix, countP_append, ih, Option.toList_some, countP_singleton]
    rw [hnext]
    obtain ⟨hadmits, reason, hskip, hfailure, hconflict⟩ | ⟨hadmits, hskip⟩ :=
      skipReason?_cases sel (losers fixes) k fix
    all_goals rw [← Selection.admits_iff] at hadmits
    · rw [step_of_skipReason hskip] at hstep
      cases hstep
      rw [if_neg hadmits, Outcome.met, Outcome.met, Outcome.lost_skip, Outcome.failed_skip, if_neg hconflict, hfailure]
      simp [Outcome.skip]
    · rw [if_pos hadmits]
      obtain ⟨reason, hskip', hout⟩ | ⟨-, hout | ⟨fault, hout⟩⟩ := step_cases hstep <;> rw [hout]
      · obtain ⟨-, hskip⟩ | ⟨-, hskip⟩ := hskip
        all_goals cases hskip.symm.trans hskip'
        rw [Outcome.met_skip_conflict]
      · rw [Outcome.met_apply]
      · rw [Outcome.met_skip_failure]
  rwa [take_length] at hrun

theorem failed_preview (sel : Selection) (fixes : List Fix) : (preview sel fixes).failed = [] := by
  have hskipped := (follows_preview (idle_applyAll sel fixes .null)).skipped
  rw [Outcome.failed, map_eq_nil_iff, filter_eq_nil_iff]
  intro s hs
  simpa using filter_eq_self.mp hskipped s hs

/-- No fix loses a conflict exactly if no admitted one has a path in common with an earlier fix. -/
theorem lost_eq_nil_iff (hproper : ∀ fix ∈ fixes, ∀ op ∈ fix.operations, op.path.isProper = true)
    (h : w.applyAll sel fixes s = .ok (t, o)) :
    o.lost = [] ↔ ∀ (i j : Nat) (f g : Fix), i < j → fixes[i]? = some f → fixes[j]? = some g → sel.Admits g →
      f.Apart g := by
  have hlost (j : Nat) : j ∈ o.lost ↔ ∃ g, fixes[j]? = some g ∧ sel.Admits g ∧ j ∈ losers fixes := by
    rw [Outcome.mem_lost_iff, mem_skipped_iff h rfl]
    simp only [skipReason?_eq_conflict_iff]
  rw [eq_nil_iff_forall_not_mem]
  constructor
  · intro hnone i j f g hij hf hg hadmits a ha b hb heq
    have hfirst : Touches fixes i a.path := ⟨f, hf, mem_map_of_mem ha⟩
    have hsecond : Touches fixes j b.path := ⟨g, hg, mem_map_of_mem hb⟩
    exact hnone j ((hlost j).mpr ⟨g, hg, hadmits, mem_losers hij hfirst (heq ▸ hsecond)⟩)
  · intro hapart j hj
    obtain ⟨g, hg, hadmits, hloser⟩ := (hlost j).mp hj
    obtain ⟨path, i, ⟨g', hg', hsecond⟩, ⟨⟨f, hf, hfirst⟩, -⟩, hij⟩ := (mem_losers_iff hproper).mp hloser
    cases hg.symm.trans hg'
    obtain ⟨a, ha, rfl⟩ := mem_map.mp hfirst
    obtain ⟨b, hb, hpath⟩ := mem_map.mp hsecond
    exact hapart i j f g hij hf hg hadmits a ha b hb hpath.symm

end Workplace

end Fix

open ViewLint.Fix

namespace Console

/-! ## The announced number -/

theorem announced_eq (sel : Selection) (fixes : List Fix) : announced sel fixes = fixes.countP sel.admits := by
  have hadmits (hsafe : sel.safeOnly = true) :
      fixes.countP sel.admits = ((fixes.filter (sel.wants ·.rule)).filter (·.safe)).length := by
    rw [filter_filter, ← countP_eq_length_filter]
    exact countP_congr fun f _ => by simp [Selection.admits, hsafe, and_comm]
  cases hsel : sel.safeOnly with
  | false =>
    have hall : sel.admits = fun f => sel.wants f.rule := by
      funext f
      simp [Selection.admits, hsel]
    simp only [announced, hsel, Bool.false_and, Bool.false_eq_true, if_false, hall, countP_eq_length_filter]
  | true =>
    have hle := length_filter_le (fun f : Fix => f.safe) (fixes.filter (sel.wants ·.rule))
    simp only [announced, hsel, Bool.true_and, hadmits hsel, decide_eq_true_eq]
    split <;> omega

/-- Lines announce a number of fixes. -/
def Announces (lines : List Text) (n : Nat) : Prop :=
  "  Would apply: " ++ natText n ++ " fix(es)" ∈ lines ∨ "  --fix would apply: " ++ natText n ++ " safe fix(es)" ∈ lines

/-- Whether a line is none of those that end a listing. -/
def isListed (s : Text) : Bool := s[2]? != some (.char 'W') && s[2]? != some (.char '-')

/-- A listing without its end. -/
def listing (sel : Selection) (file : Text) (fixes : List Fix) : List Text :=
  let wanted := fixes.filter (sel.wants ·.rule)
  let safe := (wanted.filter (·.safe)).length
  flatten [["", Report.line "=", "Proposed Fixes for " ++ file ++ ":", Report.line "="],
      ((numbered fixes).filter fun (_, f) => sel.wants f.rule).flatMap fun (n, f) => fix n f,
      ["", "Summary: " ++ natText wanted.length ++ " fixes (" ++ natText safe ++ " safe, "
        ++ natText (wanted.length - safe) ++ " unsafe)"],
      if fixes.length - wanted.length == 0 then []
      else ["  Filtered out: " ++ natText (fixes.length - wanted.length) ++ " (not in --fix-rules)"]]

theorem isListed_of_mem_fix {number : Nat} {f : Fix} {line : Text} (h : line ∈ fix number f) :
    isListed line = true := by
  obtain h | h := mem_append.mp h
  · simp only [mem_cons, not_mem_nil, or_false] at h
    obtain rfl | rfl | rfl | rfl := h <;> rfl
  · obtain ⟨op, -, h⟩ := mem_flatMap.mp h
    rw [operation] at h
    split at h <;> simp only [mem_cons, not_mem_nil, or_false] at h
    · obtain rfl := h
      rfl
    · obtain rfl | rfl := h <;> rfl

theorem isListed_of_mem_listing {sel : Selection} {file : Text} {fixes : List Fix} {line : Text}
    (h : line ∈ listing sel file fixes) : isListed line = true := by
  simp only [listing, flatten_cons, flatten_nil, append_nil, mem_append] at h
  obtain h | h | h | h := h
  · simp only [mem_cons, not_mem_nil, or_false] at h
    obtain rfl | rfl | rfl | rfl := h <;> rfl
  · obtain ⟨f, -, h⟩ := mem_flatMap.mp h
    exact isListed_of_mem_fix h
  · simp only [mem_cons, not_mem_nil, or_false] at h
    obtain rfl | rfl := h <;> rfl
  · split at h
    · cases h
    · obtain rfl := mem_singleton.mp h
      rfl

theorem append_ne_append {a b x y u v : Text} (hab : ¬ a <+: b) (hba : ¬ b <+: a) : a ++ x ++ u ≠ b ++ y ++ v := by
  intro h
  have ha : a <+: a ++ x ++ u := ⟨x ++ u, (append_assoc a x u).symm⟩
  have hb : b <+: a ++ x ++ u := ⟨y ++ v, (append_assoc b y v).symm.trans h.symm⟩
  exact ( prefix_or_prefix_of_prefix ha hb).elim hab hba

theorem announces_iff (sel : Selection) (file : Text) (fixes : List Fix) (n : Nat) :
    Announces (fixPreview sel file fixes) n ↔ n = announced sel fixes := by
  have hsplit : fixPreview sel file fixes = listing sel file fixes ++
      if sel.safeOnly && ((fixes.filter (sel.wants ·.rule)).filter (·.safe)).length <
          (fixes.filter (sel.wants ·.rule)).length then
        ["  --fix would apply: " ++ natText (announced sel fixes) ++ " safe fix(es)",
          "  --fix --fix-unsafe would apply: " ++ natText (fixes.filter (sel.wants ·.rule)).length ++ " fix(es)"]
      else ["  Would apply: " ++ natText (announced sel fixes) ++ " fix(es)"] := by
    simp only [fixPreview, listing, flatten_cons, flatten_nil, append_nil, append_assoc]
  have hcancel {front back : Text} (h : front ++ natText n ++ back = front ++ natText (announced sel fixes) ++ back) :
      n = announced sel fixes :=
    natText_inj (append_cancel_left (append_cancel_right h))
  constructor
  · rw [Announces, hsplit]
    rintro (h | h) <;> obtain h | h := mem_append.mp h
    · cases isListed_of_mem_listing h
    · split at h
      · simp only [mem_cons, not_mem_nil, or_false] at h
        obtain h | h := h <;> exact absurd h (append_ne_append (by decide +kernel) (by decide +kernel))
      · exact hcancel (mem_singleton.mp h)
    · cases isListed_of_mem_listing h
    · split at h
      · simp only [mem_cons, not_mem_nil, or_false] at h
        obtain h | h := h
        · exact hcancel h
        · exact absurd h (append_ne_append (by decide +kernel) (by decide +kernel))
      · exact absurd (mem_singleton.mp h) (append_ne_append (by decide +kernel) (by decide +kernel))
  · rintro rfl
    rw [Announces, hsplit]
    split <;> simp

end Console

namespace NamePattern.Config

open View Json

/-! ## The fixes for a view -/

section Review

variable {c : Config} {v : Json} {findings : List Finding} {fixes : List Fix} (hdoc : v.isDocument = true)
  (hmeta : hasPlainMeta v = true) (h : c.review v = .ok (findings, fixes))

include hdoc hmeta h

theorem addresses_of_review {fix : Fix} (hfix : fix ∈ fixes) {op : Operation} (hop : op ∈ fix.operations) :
    Addresses v op := by
  obtain ⟨es, l, model, hes, hl, -, hcheck⟩ := of_review h
  obtain ⟨n, -, hmade⟩ := madeFor_of_check hcheck hfix
  obtain ⟨new, refs, -, hrenames⟩ := hmade.renamesTo
  obtain ⟨place, description, hplace, hops⟩ := hrenames.operations_eq
  rw [hops] at hop
  obtain rfl | hop := mem_cons.mp hop
  · obtain ⟨spot, key, kind, fields, name, own, rfl, hat, hname, hcomponent, -⟩ :=
      Locator.at_namePlace hdoc hes hl hplace
    obtain ⟨s, -, rfl⟩ := name_of_isPlainMeta hcomponent (hat.of_everyObject hmeta)
    exact ⟨by simp, ⟨.str s, hname, nofun⟩, rfl⟩
  · obtain ⟨r, hr, rfl⟩ := mem_map.mp hop
    obtain ⟨hne, old, hold, -, path, -, hfound⟩ := Reference.of_mem_find hrenames.find_eq hr
    obtain ⟨w, hat⟩ := Locator.at_place hdoc hl hfound
    exact ⟨hne, ⟨w, hat, fun _ => ⟨_, _, rfl⟩⟩, by rw [hold]; rfl⟩

end Review

/-- **A preview counts the fixes that lose a conflict, too.** A listing announces just the number of the fixes
that a run applies and of those that lose a conflict or fail. On a view, a run of the fixes for it returns and
none of them fails, and the announced number is the number of fixes that it applies exactly if no admitted fix
has a path in common with an earlier one. -/
theorem announced_with_losers (sel : Selection) (file : Text) (fixes : List Fix) :
    (∀ {σ : Type} (w : Workplace σ) (s t : σ) (o : Outcome), w.applyAll sel fixes s = .ok (t, o) → ∀ n,
      Console.Announces (Console.fixPreview sel file fixes) n ↔
        n = o.applied.length + o.lost.length + o.failed.length) ∧
    ∀ (c : Config) (v : Json) (findings : List Finding), v.isDocument = true → hasPlainMeta v = true →
      c.review v = .ok (findings, fixes) → ∃ doc o, applyAll sel fixes v = .ok (doc, o) ∧ o.failed = [] ∧
        (Console.Announces (Console.fixPreview sel file fixes) o.applied.length ↔
          ∀ (i j : Nat) (f g : Fix), i < j → fixes[i]? = some f → fixes[j]? = some g → sel.Admits g → f.Apart g) := by
  have hcount {σ : Type} (w : Workplace σ) (s t : σ) (o : Outcome) (hrun : w.applyAll sel fixes s = .ok (t, o))
      (n : Nat) : Console.Announces (Console.fixPreview sel file fixes) n ↔ n = o.met := by
    rw [Console.announces_iff, Console.announced_eq, Workplace.countP_admits hrun]
  refine ⟨hcount, fun c v findings hdoc hmeta h => ?_⟩
  have hops : ∀ fix ∈ fixes, ∀ op ∈ fix.operations, Addresses v op :=
    fun _ hfix _ hop => addresses_of_review hdoc hmeta h hfix hop
  have hrun := applyAll_settled hdoc hops sel
  have hfailed := Workplace.failed_preview sel fixes
  refine ⟨_, _, hrun, hfailed, ?_⟩
  have hproper : ∀ fix ∈ fixes, ∀ op ∈ fix.operations, op.path.isProper = true := fun fix hfix op hop => by
    obtain ⟨w, hat, -⟩ := (hops fix hfix op hop).found
    exact hat.isProper
  rw [hcount .plain v _ _ hrun, Outcome.met, hfailed, ← Workplace.lost_eq_nil_iff (w := .plain) hproper hrun,
    ← length_eq_zero_iff]
  simp

theorem announced_with_losers_hall : hall.isDocument = true ∧ hasPlainMeta hall = true ∧ ∃ findings fixes,
      (following .pascal).review hall = .ok (findings, fixes) ∧ fixes.length = 2 ∧
      ∃ doc o, applyAll { safeOnly := false } fixes hall = .ok (doc, o) ∧ o.failed = [] ∧
        Console.Announces (Console.fixPreview { safeOnly := false } "view.json" fixes) (o.applied.length + o.lost.length) := by
  have hdoc : hall.isDocument = true := by decide
  have hmeta : hasPlainMeta hall = true := by decide
  obtain ⟨⟨findings, fixes⟩, hreview, hlength⟩ : ∃ r, (following .pascal).review hall = .ok r ∧ r.2.length = 2 := by
    decide +kernel
  obtain ⟨hcount, hview⟩ := announced_with_losers { safeOnly := false } "view.json" fixes
  obtain ⟨doc, o, hrun, hfailed, -⟩ := hview _ hall findings hdoc hmeta hreview
  refine ⟨hdoc, hmeta, findings, fixes, hreview, hlength, doc, o, hrun, hfailed, ?_⟩
  rw [hcount .plain hall doc o hrun, hfailed]
  rfl

/-- A component with three others in it, the last of which mentions the two before it. -/
def duet : Json :=
  namedWith "Hall" [("children", .arr [namedWith "lamp" [], namedWith "bell" [],
    namedWith "Door" [("note", .str "\x7b../lamp.on\x7d and \x7b../bell.on\x7d")]])]

/-- Both fixes are announced, and one of them is applied. -/
theorem not_announces_duet : ∃ findings fixes doc o, (following .pascal).review duet = .ok (findings, fixes) ∧
    applyAll { safeOnly := false } fixes duet = .ok (doc, o) ∧ o.applied.length = 1 ∧
    ¬ Console.Announces (Console.fixPreview { safeOnly := false } "view.json" fixes) o.applied.length := by
  obtain ⟨⟨findings, fixes⟩, hreview, ⟨⟨doc, o⟩, happly, happlied⟩, hannounced⟩ :
      ∃ r, (following .pascal).review duet = .ok r ∧
        (∃ t, applyAll { safeOnly := false } r.2 duet = .ok t ∧ t.2.applied.length = 1) ∧
        Console.announced { safeOnly := false } r.2 = 2 := by
    decide +kernel
  refine ⟨findings, fixes, doc, o, hreview, happly, happlied, fun h => ?_⟩
  rw [Console.announces_iff, happlied, hannounced] at h
  cases h

end NamePattern.Config

end ViewLint
