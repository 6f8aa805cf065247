import Mathlib.Data.List.Infix
import Mathlib.Tactic.Common
import ViewLint.Number.Decimal
import ViewLint.Text.Index

/-!
# Cutting texts

* `Text.append_cons_inj`: texts that are ended by the same stop agree up to the stop.
* `Text.cut?_eq_some`, `Text.rcut?_eq_some`: the two parts of a cut text.
-/

namespace ViewLint

open List Option

namespace Text

variable {d stop : CodePoint} {a b needle s r : Text}

/-! ## Stops -/

/-- A word does not reach over a stop. -/
theorem prefix_append_stop (ha : stop ∉ a) : a <+: b ++ stop :: r ↔ a <+: b := by
  refine ⟨fun h => ?_, fun h => h.trans (prefix_append b _)⟩
  have hstop : b ++ [stop] <+: b ++ stop :: r := ⟨r, by simp⟩
  obtain h | h := prefix_or_prefix_of_prefix h hstop
  · exact (prefix_concat_iff.mp h).resolve_left fun heq => ha (by simp [heq])
  · exact absurd (h.subset (by simp)) ha

theorem append_cons_inj (ha : stop ∉ a) (hb : stop ∉ b) (h : a ++ stop :: r = b ++ stop :: s) : a = b ∧ r = s := by
  have hab : a <+: b := (prefix_append_stop ha).mp ⟨_, h⟩
  have hba : b <+: a := (prefix_append_stop hb).mp ⟨_, h.symm⟩
  obtain rfl := hab.eq_of_length_le hba.length_le
  exact ⟨rfl, (cons.inj (append_cancel_left h)).2⟩

theorem not_suffix_of_suffix (ha : a <:+ s) (hab : ¬ a <:+ b) (hba : ¬ b <:+ a) : ¬ b <:+ s :=
  fun hb => (suffix_or_suffix_of_suffix ha hb).elim hab hba

/-! ## Cuts -/

theorem cut?_eq_some (h : cut? needle s = some (a, b)) : s = a ++ needle ++ b := by
  induction s generalizing a with
  | nil =>
    rw [cut?] at h
    split at h
    · next hn => cases h; simpa using hn.symm
    · cases h
  | cons c r ih =>
    rw [cut?] at h
    split at h
    · next hn =>
      cases h
      exact (prefix_iff_eq_append.mp ( isPrefixOf_iff_prefix.mp hn)).symm
    · obtain ⟨⟨a', b'⟩, h', e⟩ := map_eq_some_iff.mp h
      cases e
      rw [ih h', cons_append, cons_append]

theorem holds_iff_isInfix : holds s needle = true ↔ needle <:+: s := by
  rw [holds]
  induction s with
  | nil =>
    rw [cut?]
    cases needle <;> simp
  | cons c r ih =>
    rw [cut?, infix_cons_iff, ← ih, ← isPrefixOf_iff_prefix]
    split <;> next h => simp [h]

/-- No cut begins in a text without the first code point of what is looked for. -/
theorem cut?_append_left {w : Text} (hw : d ∉ w) (s : Text) :
    cut? (d :: needle) (w ++ s) = (cut? (d :: needle) s).map fun p => (w ++ p.1, p.2) := by
  induction w with
  | nil => simp
  | cons c w ih =>
    have hc : ¬ (d :: needle).isPrefixOf (c :: (w ++ s)) = true := by
      rw [ isPrefixOf_iff_prefix]
      rintro ⟨t, ht⟩
      exact hw ((cons.inj ht).1 ▸ mem_cons_self)
    rw [cons_append, cut?, if_neg hc, ih fun h => hw (List.mem_cons_of_mem _ h), Option.map_map]
    rfl

/-- The first cut stays the first when more text follows. -/
theorem cut?_append_right (h : cut? needle s = some (a, b)) (t : Text) : cut? needle (s ++ t) = some (a, b ++ t) := by
  induction s generalizing a with
  | nil =>
    rw [cut?] at h
    split at h
    · next hn =>
      cases h
      obtain rfl : needle = [] := by simpa using hn
      cases t <;> simp [cut?]
    · cases h
  | cons c r ih =>
    rw [cut?] at h
    rw [cons_append, cut?]
    split at h
    · next hn =>
      cases h
      have hn := isPrefixOf_iff_prefix.mp hn
      have hn' : needle.isPrefixOf (c :: (r ++ t)) = true :=
        isPrefixOf_iff_prefix.mpr (hn.trans (prefix_append (c :: r) t))
      rw [if_pos hn', ← cons_append, drop_append_of_le_length hn.length_le]
    · next hn =>
      obtain ⟨⟨a', b'⟩, h', e⟩ := map_eq_some_iff.mp h
      cases e
      have hlen : needle.length ≤ r.length := by
        have := congrArg length (cut?_eq_some h')
        simp only [length_append] at this
        omega
      have hn' : ¬ needle.isPrefixOf (c :: (r ++ t)) = true := by
        intro hp
        apply hn
        rw [ isPrefixOf_iff_prefix] at hp ⊢
        exact prefix_of_prefix_length_le hp (prefix_append (c :: r) t) (by simp; omega)
      rw [if_neg hn', ih h']
      rfl

theorem rcut?_eq_some (h : rcut? needle s = some (a, b)) : s = a ++ needle ++ b := by
  obtain ⟨⟨x, y⟩, hcut, e⟩ := map_eq_some_iff.mp h
  cases e
  have := congrArg reverse (cut?_eq_some hcut)
  simpa using this

/-- The last cut stays the last when more text stands in front. -/
theorem rcut?_append (h : rcut? needle s = some (a, b)) (w : Text) : rcut? needle (w ++ s) = some (w ++ a, b) := by
  obtain ⟨⟨x, y⟩, hcut, e⟩ := map_eq_some_iff.mp h
  cases e
  rw [rcut?, reverse_append, cut?_append_right hcut]
  simp

/-- No cut comes before the first one. -/
theorem length_le_of_cut? {x y : Text} (h : cut? needle s = some (a, b))
    (hs : s = x ++ needle ++ y) : a.length ≤ x.length := by
  induction s generalizing a x with
  | nil =>
    rw [cut?] at h
    split at h <;> cases h
    exact Nat.zero_le _
  | cons c r ih =>
    rw [cut?] at h
    split at h
    · cases h
      exact Nat.zero_le _
    · next hn =>
      obtain ⟨⟨a', b'⟩, h', e⟩ := map_eq_some_iff.mp h
      cases e
      cases x with
      | nil =>
        refine absurd ( isPrefixOf_iff_prefix.mpr ?_) hn
        rw [hs, nil_append]
        exact prefix_append needle y
      | cons d x => exact Nat.succ_le_succ (ih h' (cons.inj hs).2)

/-- No cut comes after the last one. -/
theorem length_le_of_rcut? {x y : Text} (h : rcut? needle s = some (a, b))
    (hs : s = x ++ needle ++ y) : x.length ≤ a.length := by
  obtain ⟨⟨b', a'⟩, hcut, e⟩ := map_eq_some_iff.mp h
  cases e
  have hle := length_le_of_cut? hcut (x := y.reverse) (y := x.reverse) (by simp [hs])
  have hlen := congrArg length (hs.symm.trans (rcut?_eq_some h))
  simp only [length_append, length_reverse] at hle hlen ⊢
  omega

theorem rcut?_isSome (needle a b : Text) : (rcut? needle (a ++ needle ++ b)).isSome = true := by
  rw [rcut?, isSome_map]
  refine holds_iff_isInfix.mpr ⟨b.reverse, a.reverse, ?_⟩
  simp

/-- What ends a text is cut off last. -/
theorem rcut?_append_self (needle a : Text) : rcut? needle (a ++ needle) = some (a, []) := by
  obtain ⟨⟨x, y⟩, h⟩ := isSome_iff_exists.mp (rcut?_isSome needle a [])
  rw [append_nil] at h
  have hsplit := rcut?_eq_some h
  have hle := length_le_of_rcut? h (append_nil _).symm
  have hlength := congrArg length hsplit
  simp only [length_append] at hlength
  obtain rfl : y = [] := length_eq_zero_iff.mp (by omega)
  rw [append_nil] at hsplit
  rw [h, append_cancel_right hsplit]

/-- The last cut, where the first code point of what is looked for does not come again. -/
theorem rcut?_append_cons (hneedle : d ∉ needle) (hb : d ∉ b) (a : Text) :
    rcut? (d :: needle) (a ++ d :: needle ++ b) = some (a, b) := by
  obtain ⟨⟨x, y⟩, h⟩ := isSome_iff_exists.mp (rcut?_isSome (d :: needle) a b)
  have heq : a ++ (d :: needle ++ b) = x ++ (d :: needle ++ y) := by simpa using rcut?_eq_some h
  obtain ⟨z, rfl⟩ : a <+: x :=
    prefix_of_prefix_length_le ⟨_, heq⟩ (prefix_append x _) (length_le_of_rcut? h rfl)
  rw [append_assoc] at heq
  have htail := append_cancel_left heq
  cases z with
  | nil =>
    have hby : b = y := append_cancel_left htail
    rw [h, hby, append_nil]
  | cons c z =>
    -- otherwise the first code point stands again in what follows
    have hd : d ∈ needle ++ b := by
      have hrest : needle ++ b = z ++ (d :: needle ++ y) := (cons.inj htail).2
      rw [hrest]
      simp
    exact absurd (mem_append.mp hd) (not_or.mpr ⟨hneedle, hb⟩)

theorem rcut?_stop (stop : CodePoint) (a : Text) (hb : stop ∉ b) : rcut? [stop] (a ++ stop :: b) = some (a, b) := by
  have h := rcut?_append_cons not_mem_nil hb a
  rwa [append_assoc, singleton_append] at h

theorem rcut?_eq_none (h : d ∉ s) : rcut? (d :: needle) s = none := by
  rw [eq_none_iff_forall_not_mem]
  rintro ⟨a, b⟩ hab
  exact h (by rw [rcut?_eq_some hab]; simp)

/-- The text is the same on both sides of a last stop. -/
theorem append_cons_inj_right (hr : stop ∉ r) (hs : stop ∉ s)
    (h : a ++ stop :: r = b ++ stop :: s) : a = b ∧ r = s := by
  have hcut := rcut?_stop stop a hr
  rw [h, rcut?_stop stop b hs] at hcut
  obtain ⟨rfl, rfl⟩ := Prod.mk.inj (some.inj hcut)
  exact ⟨rfl, rfl⟩

/-! ## Indices -/

/-- An index at the front of a text is a run of digits between brackets. -/
theorem bracketed?_eq_some_iff {digits rest : Text} : bracketed? s = some (digits, rest) ↔
      s = .char '[' :: (digits ++ .char ']' :: rest) ∧ digits ≠ [] ∧ ∀ c ∈ digits, isDigit c = true := by
  constructor
  · intro h
    unfold bracketed? at h
    split at h
    · next r =>
      have hr := takeWhile_append_dropWhile (p := isDigit) (l := r)
      simp only at h
      split at h
      · next after hafter =>
        split at h
        · cases h
        · next hne =>
          cases h
          rw [hafter] at hr
          exact ⟨by rw [hr], by simpa using hne, all_eq_true.mp all_takeWhile⟩
      · cases h
    · cases h
  · rintro ⟨rfl, hne, hdigits⟩
    have hstop : isDigit (.char ']') = false := by decide
    have htake : (digits ++ .char ']' :: rest).takeWhile isDigit = digits := by
      rw [takeWhile_append_of_pos hdigits, takeWhile_cons_of_neg (by simp [hstop]), append_nil]
    have hdrop : (digits ++ .char ']' :: rest).dropWhile isDigit = .char ']' :: rest := by
      rw [dropWhile_append_of_pos hdigits, dropWhile_cons_of_neg (by simp [hstop])]
    rw [bracketed?, htake, hdrop]
    simp [hne]

end Text

/-! ## Decimal digits -/

theorem natText_inj {i j : Nat} (h : natText i = natText j) : i = j := by
  have hdigits : Nat.toDigits 10 i = Nat.toDigits 10 j :=
    map_injective_iff.mpr (fun _ _ => CodePoint.char.inj) h
  rw [← Nat.ofDigitChars_toDigits (b := 10) (n := i) (by decide) (by decide), hdigits,
    Nat.ofDigitChars_toDigits (by decide) (by decide)]

theorem exists_of_mem_natText {i : Nat} {c : CodePoint} (h : c ∈ natText i) :
    ∃ ch : Char, c = .char ch ∧ ch.isDigit = true := by
  obtain ⟨ch, hch, rfl⟩ := mem_map.mp h
  exact ⟨ch, rfl, Nat.isDigit_of_mem_toDigits (by decide) (by decide) hch⟩

theorem not_mem_natText (ch : Char) (h : ch.isDigit = false) (i : Nat) : CodePoint.char ch ∉ natText i := by
  intro hmem
  obtain ⟨digit, hdigit, his⟩ := exists_of_mem_natText hmem
  cases hdigit
  cases h.symm.trans his

theorem digitValue?_char {ch : Char} (h : ch.isDigit = true) :
    digitValue? (.char ch) = some (ch.toNat - '0'.toNat) := by
  have hzero : (48 ≤ ch.toNat && ch.toNat ≤ 48 + 9) = true := by
    simpa [Char.isDigit, UInt32.le_iff_toNat_le] using h
  have hfind : digitZeros.find? (fun z => z ≤ ch.toNat && ch.toNat ≤ z + 9) = some 48 :=
    find?_cons_of_pos hzero
  exact congrArg (Option.map (ch.toNat - ·)) hfind

theorem isDigit_of_mem_natText {i : Nat} {c : CodePoint} (h : c ∈ natText i) : isDigit c = true := by
  obtain ⟨ch, rfl, hch⟩ := exists_of_mem_natText h
  rw [isDigit, digitValue?_char hch]
  rfl

theorem natText_ne_nil (i : Nat) : natText i ≠ [] := by
  intro h
  exact Nat.toDigits_ne_nil (map_eq_nil_iff.mp h)

end ViewLint
