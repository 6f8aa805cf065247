import ViewLint.Proofs.Cutting

/-!
# Occurrences

Where a text is found in a longer one: first occurrences, and occurrences in a path that is put together from steps.

* `Text.cut?_eq_some_iff`: the first occurrence of a text that does not overlap with itself.
* `Text.infix_append_stop`, `Text.infix_append_stop_two`: steps of a path found in a longer path.
-/

namespace ViewLint

open List

namespace Text

/-! ## First occurrences -/

/-- No proper end of a text is a beginning of it. -/
def Borderless (needle : Text) : Prop := ∀ i < needle.length, 0 < i → ¬ needle.drop i <+: needle

instance (needle : Text) : Decidable (Borderless needle) := by unfold Borderless; infer_instance

theorem cut?_eq_some_iff {needle : Text} (hne : needle ≠ []) (hborder : Borderless needle) {s a b : Text} :
    cut? needle s = some (a, b) ↔ s = a ++ needle ++ b ∧ ¬ needle <:+: a := by
  have hpos := length_pos_iff.mpr hne
  constructor
  · intro h
    refine ⟨cut?_eq_some h, fun hin => ?_⟩
    obtain ⟨x, y, hxy⟩ := hin
    have hle := length_le_of_cut? h (x := x) (y := y ++ needle ++ b) (by rw [cut?_eq_some h, ← hxy]; simp)
    have hlength := congrArg length hxy
    simp only [length_append] at hlength
    omega
  · rintro ⟨rfl, hfirst⟩
    have hholds : holds (a ++ needle ++ b) needle = true := holds_iff_isInfix.mpr ⟨a, b, rfl⟩
    obtain ⟨⟨x, y⟩, h⟩ := Option.isSome_iff_exists.mp hholds
    have heq := cut?_eq_some h
    simp only [append_assoc] at heq
    obtain ⟨z, rfl⟩ : x <+: a :=
      prefix_of_prefix_length_le ⟨_, heq.symm⟩ (prefix_append a _) (length_le_of_cut? h rfl)
    rw [append_assoc] at heq
    have hrest : z ++ (needle ++ b) = needle ++ y := append_cancel_left heq
    obtain ⟨u, hu⟩ | hwhole := prefix_or_prefix_of_prefix (prefix_append z _) ⟨y, hrest.symm⟩
    · -- The two occurrences overlap, unless they are the same
      have hover : needle ++ b = u ++ y := by
        have heq : z ++ (needle ++ b) = z ++ (u ++ y) := by rw [hrest, ← append_assoc, hu]
        exact append_cancel_left heq
      have hdrop : needle.drop z.length = u := by rw [← hu, drop_left]
      have hstart : u <+: needle := by
        refine prefix_of_prefix_length_le ⟨y, hover.symm⟩ (prefix_append needle b) ?_
        rw [← hu, length_append]
        omega
      by_cases hz : z = []
      · subst hz
        obtain rfl : u = needle := hu
        rw [h, append_nil, append_cancel_left hover]
      · by_cases hlt : z.length < needle.length
        · exact absurd (hdrop ▸ hstart) (hborder _ hlt (length_pos_iff.mpr hz))
        · have hnil : u = [] := by
            rw [← hdrop]
            exact drop_eq_nil_of_le (Nat.le_of_not_lt hlt)
          subst hnil
          rw [append_nil] at hu
          exact absurd (hu ▸ (suffix_append x z).isInfix) hfirst
    · exact absurd (hwhole.isInfix.trans (suffix_append x z).isInfix) hfirst

/-- What stands before the first occurrence. -/
theorem before_eq_iff {needle : Text} (hne : needle ≠ []) (hborder : Borderless needle) {s a : Text}
    (hholds : holds s needle = true) : before needle s = a ↔ a ++ needle <+: s ∧ ¬ needle <:+: a := by
  obtain ⟨⟨x, y⟩, h⟩ := Option.isSome_iff_exists.mp hholds
  have hbefore : before needle s = x := by rw [before, h]; rfl
  rw [hbefore]
  constructor
  · rintro rfl
    obtain ⟨rfl, hfirst⟩ := (cut?_eq_some_iff hne hborder).mp h
    exact ⟨prefix_append _ y, hfirst⟩
  · rintro ⟨⟨b, rfl⟩, hfirst⟩
    have hcut := (cut?_eq_some_iff hne hborder).mpr ⟨(rfl : a ++ needle ++ b = a ++ needle ++ b), hfirst⟩
    rw [h] at hcut
    exact (Prod.mk.inj (Option.some.inj hcut)).1

/-! ## Steps of a path -/

section Stop

variable {stop : CodePoint} {u w p r : Text}

/-- A word behind a stop is found before the next stop or from there on. -/
theorem infix_append_stop (hw : stop ∉ w) :
    stop :: w <:+: p ++ stop :: r ↔ stop :: w <:+: p ∨ stop :: w <:+: stop :: r := by
  induction p with
  | nil => simp
  | cons d p ih =>
    have hcons : stop :: w <:+: d :: p ↔ stop :: w <+: d :: p ∨ stop :: w <:+: p := infix_cons_iff
    rw [cons_append, infix_cons_iff, ih, hcons, cons_prefix_cons, cons_prefix_cons, prefix_append_stop hw, or_assoc]

theorem infix_stop_iff (hp : stop ∉ p) : stop :: w <:+: stop :: p ↔ w <+: p := by
  rw [infix_cons_iff, cons_prefix_cons]
  simp only [true_and, or_iff_left_iff_imp]
  exact fun h => absurd (h.subset mem_cons_self) hp

theorem suffix_append_stop_iff (hu : stop ∉ u) (hr : stop ∉ r) : stop :: u <:+ p ++ stop :: r ↔ u = r := by
  constructor
  · rintro ⟨x, h⟩
    exact (append_cons_inj_right hu hr h).2
  · rintro rfl
    exact suffix_append p _

/-- Two words with a stop between them reach over one stop. -/
theorem prefix_append_stop_two (hu : stop ∉ u) (hw : stop ∉ w) :
    u ++ stop :: w <+: p ++ stop :: r ↔ u ++ stop :: w <+: p ∨ u = p ∧ w <+: r := by
  induction p generalizing u with
  | nil =>
    cases u with
    | nil => simp
    | cons c u =>
      have hc : c ≠ stop := fun h => hu (h ▸ mem_cons_self)
      simp [cons_prefix_cons, hc]
  | cons d p ih =>
    cases u with
    | nil => simp [cons_prefix_cons, prefix_append_stop hw]
    | cons c u =>
      rw [cons_append, cons_append, cons_prefix_cons, ih fun h => hu (mem_cons_of_mem c h),
        cons_prefix_cons, cons_eq_cons, and_or_left, and_assoc]

/-- Two words behind stops are found before the next stop, on both sides of it, or from there on. -/
theorem infix_append_stop_two (hu : stop ∉ u) (hw : stop ∉ w) : stop :: (u ++ stop :: w) <:+: p ++ stop :: r ↔
      stop :: (u ++ stop :: w) <:+: p ∨ stop :: u <:+ p ∧ w <+: r ∨ stop :: (u ++ stop :: w) <:+: stop :: r := by
  induction p with
  | nil => simp
  | cons d p ih =>
    have hcons : stop :: (u ++ stop :: w) <:+: d :: p ↔
        stop :: (u ++ stop :: w) <+: d :: p ∨ stop :: (u ++ stop :: w) <:+: p := infix_cons_iff
    rw [cons_append, infix_cons_iff, ih, hcons, cons_prefix_cons, cons_prefix_cons,
      prefix_append_stop_two hu hw, suffix_cons_iff, cons_eq_cons, and_or_left, or_and_right, and_assoc]
    grind

/-- What ends in a stop is not found in a word without one. -/
theorem infix_append_free (hw : stop ∉ w) : u ++ [stop] <:+: p ++ w ↔ u ++ [stop] <:+: p := by
  refine ⟨?_, fun h => h.trans (prefix_append p w).isInfix⟩
  rintro ⟨a, b, h⟩
  obtain ⟨c, rfl, -⟩ | ⟨c, hs, rfl⟩ := append_eq_append_iff.mp h
  · exact ⟨a, c, rfl⟩
  · cases c using reverseRecOn with
    | nil => exact ⟨a, [], by simpa using hs⟩
    | append_singleton c d =>
      have hd : stop = d := by simpa using congrArg getLast? hs
      exact absurd (by simp [hd]) hw

end Stop

end Text

end ViewLint
