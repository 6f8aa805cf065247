import Mathlib.Data.List.Basic
import Mathlib.Tactic.Common
import ViewLint.Proofs.Cutting
import ViewLint.Text.Search

/-!
# Exchanging a text

Every occurrence of one text is exchanged for another, from left to right.

* **`Text.replace_append_cons`**: a character that does not occur in the exchanged text parts the work.
* `Text.Exchanges`: a target in which some occurrences are exchanged; it is the result of the exchange
  exactly if it counts them all.
* **`Text.Exchanges.append_cons`**: targets of two parts make a target of the whole.
-/

namespace ViewLint.Text

open List

variable {r : Text} {c d : CodePoint} {pieces : List Text}

/-! ## Splitting at the occurrences of a text -/

theorem splitFrom_ne_nil (sep : Text) (skip : Nat) (s : Text) : splitFrom sep skip s ≠ [] := by
  induction s generalizing skip with
  | nil => simp [splitFrom]
  | cons c r ih =>
    cases skip with
    | succ skip => exact ih skip
    | zero =>
      rw [splitFrom]
      split
      · simp
      · cases h : splitFrom sep 0 r <;> simp [consHead]

theorem splitFrom_eq_drop (sep : Text) (skip : Nat) (s : Text) :
    splitFrom sep skip s = splitFrom sep 0 (s.drop skip) := by
  induction s generalizing skip with
  | nil => simp [splitFrom]
  | cons c r ih =>
    cases skip with
    | zero => rfl
    | succ skip => exact ih skip

theorem splitOn_ne_nil (sep s : Text) : splitOn sep s ≠ [] := splitFrom_ne_nil sep 0 s

theorem splitOn_of_start {sep s : Text} (hsep : sep ≠ []) (h : sep <+: s) :
    splitOn sep s = [] :: splitOn sep (s.drop sep.length) := by
  cases s with
  | nil => exact absurd (prefix_nil.mp h) hsep
  | cons c r =>
    rw [splitOn, splitFrom, if_pos ( isPrefixOf_iff_prefix.mpr h), splitFrom_eq_drop, splitOn]
    obtain ⟨d, t, rfl⟩ := exists_cons_of_ne_nil hsep
    rfl

theorem splitOn_cons {sep : Text} (h : ¬ sep <+: c :: r) : splitOn sep (c :: r) = consHead c (splitOn sep r) := by
  rw [splitOn, splitFrom, if_neg fun e => h ( isPrefixOf_iff_prefix.mp e)]
  rfl

theorem join_consHead (sep : Text) (c : CodePoint) (h : pieces ≠ []) :
    join sep (consHead c pieces) = c :: join sep pieces := by
  match pieces, h with
  | [_], _ => rfl
  | _ :: _ :: _, _ => rfl

theorem join_nil_cons (sep : Text) (h : pieces ≠ []) : join sep ([] :: pieces) = sep ++ join sep pieces := by
  match pieces, h with
  | _ :: _, _ => rfl

theorem length_consHead (c : CodePoint) (h : pieces ≠ []) : (consHead c pieces).length = pieces.length := by
  match pieces, h with
  | _ :: _, _ => rfl

/-! ## The exchange from the left -/

section Exchange

variable {old new s : Text} (hold : old ≠ [])

include hold

theorem replace_eq_join (s : Text) : replace old new s = join new (splitOn old s) := by
  rw [replace, if_neg (by simpa using hold)]

theorem replace_nil : replace old new [] = [] := by
  rw [replace_eq_join hold]
  rfl

theorem replace_of_start (h : old <+: s) : replace old new s = new ++ replace old new (s.drop old.length) := by
  rw [replace_eq_join hold, replace_eq_join hold, splitOn_of_start hold h, join_nil_cons _ (splitOn_ne_nil old _)]

theorem replace_cons (h : ¬ old <+: c :: r) : replace old new (c :: r) = c :: replace old new r := by
  rw [replace_eq_join hold, replace_eq_join hold, splitOn_cons h, join_consHead _ _ (splitOn_ne_nil old _)]

theorem occurrences_of_start (h : old <+: s) : occurrences old s = occurrences old (s.drop old.length) + 1 := by
  have hpos := length_pos_iff.mpr (splitOn_ne_nil old (s.drop old.length))
  rw [occurrences, occurrences, splitOn_of_start hold h, length_cons]
  omega

omit hold in
theorem occurrences_cons (h : ¬ old <+: c :: r) : occurrences old (c :: r) = occurrences old r := by
  rw [occurrences, occurrences, splitOn_cons h, length_consHead _ (splitOn_ne_nil old _)]

/-- Texts read from the left: at an occurrence of `old`, or at a character that starts none. -/
theorem occurrence_induction {P : Text → Prop} (nil : P []) (found : ∀ s, old <+: s → P (s.drop old.length) → P s)
    (other : ∀ c r, ¬ old <+: c :: r → P r → P (c :: r)) (s : Text) : P s := by
  induction h : s.length using Nat.strongRecOn generalizing s with
  | ind n ih =>
    subst h
    by_cases hp : old <+: s
    · have hpos := length_pos_iff.mpr hold
      have hle := hp.length_le
      exact found s hp (ih _ (by rw [length_drop]; omega) _ rfl)
    · cases s with
      | nil => exact nil
      | cons c r => exact other c r hp (ih _ (by simp) r rfl)

theorem length_replace (new s : Text) : (replace old new s).length + occurrences old s * old.length =
      s.length + occurrences old s * new.length := by
  induction s using occurrence_induction hold with
  | nil => rw [replace_nil hold]; simp [occurrences, splitOn, splitFrom]
  | found s hp ih =>
    have hle := hp.length_le
    rw [replace_of_start hold hp, occurrences_of_start hold hp, length_append, Nat.add_mul, Nat.add_mul]
    rw [length_drop] at ih
    omega
  | other c r hp ih =>
    rw [replace_cons hold hp, occurrences_cons hp, length_cons, length_cons]
    omega

/-- Without an occurrence nothing is exchanged. -/
theorem replace_of_occurrences_eq_zero (h : occurrences old s = 0) : replace old new s = s := by
  induction s using occurrence_induction hold with
  | nil => exact replace_nil hold
  | found s hp ih => rw [occurrences_of_start hold hp] at h; omega
  | other c r hp ih =>
    rw [occurrences_cons hp] at h
    rw [replace_cons hold hp, ih h]

/-- A text that the exchange keeps has no occurrence, if anything is exchanged at all. -/
theorem occurrences_eq_zero_of_replace (hne : old ≠ new) (h : replace old new s = s) : occurrences old s = 0 := by
  by_cases hlen : old.length = new.length
  · induction s using occurrence_induction hold with
    | nil => rfl
    | found s hp ih =>
      obtain ⟨t, rfl⟩ := hp
      rw [replace_of_start hold ⟨t, rfl⟩] at h
      exact absurd (append_inj_left h hlen.symm).symm hne
    | other c r hp ih =>
      rw [replace_cons hold hp] at h
      rw [occurrences_cons hp, ih (cons.inj h).2]
  · have hlength := length_replace hold new s
    rw [h] at hlength
    have : occurrences old s * old.length = occurrences old s * new.length := by omega
    rcases Nat.eq_zero_or_pos (occurrences old s) with h0 | hpos
    · exact h0
    · exact absurd (Nat.eq_of_mul_eq_mul_left hpos this) hlen

omit hold in
/-- A text that does not hold `old` has no occurrence of it. -/
theorem occurrences_of_not_holds (h : holds s old = false) : occurrences old s = 0 := by
  induction s with
  | nil => rfl
  | cons c r ih =>
    rw [holds, cut?] at h
    split at h
    · cases h
    · next hp =>
      rw [Option.isSome_map] at h
      rw [occurrences_cons fun e => hp ( isPrefixOf_iff_prefix.mpr e), ih h]

theorem replace_append_cons (new : Text) (hd : d ∉ old) (a b : Text) :
    replace old new (a ++ d :: b) = replace old new a ++ d :: replace old new b ∧
      occurrences old (a ++ d :: b) = occurrences old a + occurrences old b := by
  induction a using occurrence_induction hold with
  | nil =>
    have hp : ¬ old <+: d :: b := fun h =>
      hold (prefix_nil.mp ((@prefix_append_stop d old [] b hd).mp h))
    refine ⟨?_, ?_⟩
    · rw [nil_append, replace_cons hold hp, replace_nil hold, nil_append]
    · rw [nil_append, occurrences_cons hp]
      simp [occurrences, splitOn, splitFrom]
  | found a hp ih =>
    have hp' : old <+: a ++ d :: b := hp.trans (prefix_append a _)
    have hdrop : (a ++ d :: b).drop old.length = a.drop old.length ++ d :: b :=
      drop_append_of_le_length hp.length_le
    rw [replace_of_start hold hp', occurrences_of_start hold hp', replace_of_start hold hp,
      occurrences_of_start hold hp, hdrop, ih.1, ih.2, append_assoc]
    exact ⟨rfl, by omega⟩
  | other c r hp ih =>
    have hp' : ¬ old <+: c :: (r ++ d :: b) := fun h =>
      hp ((@prefix_append_stop d old (c :: r) b hd).mp h)
    rw [cons_append, replace_cons hold hp', occurrences_cons hp', replace_cons hold hp,
      occurrences_cons hp, ih.1, ih.2]
    exact ⟨rfl, rfl⟩

end Exchange

/-! ## Targets of an exchange -/

/-- A target in which `count` of the occurrences of `old` are exchanged for `new`. -/
structure Exchanges (old new source target : Text) (count : Nat) : Prop where
  count_le : count ≤ occurrences old source
  length_eq : target.length + count * old.length = source.length + count * new.length
  replace_eq_iff : replace old new source = target ↔ occurrences old source = count

namespace Exchanges

variable {old new : Text} (hold : old ≠ []) (hne : old ≠ new)

include hold hne

theorem refl (s : Text) : Exchanges old new s s 0 where
  count_le := Nat.zero_le _
  length_eq := by simp
  replace_eq_iff := ⟨occurrences_eq_zero_of_replace hold hne, replace_of_occurrences_eq_zero hold⟩

omit hne in
theorem whole : Exchanges old new old new 1 where
  count_le := by rw [occurrences_of_start hold prefix_rfl]; omega
  length_eq := by omega
  replace_eq_iff := by
    rw [replace_of_start hold prefix_rfl, occurrences_of_start hold prefix_rfl, drop_length, replace_nil hold]
    simp [occurrences, splitOn, splitFrom]

omit hne in
theorem append_cons (hd : d ∉ old) {s₁ s₂ t₁ t₂ : Text} {n₁ n₂ : Nat}
    (h₁ : Exchanges old new s₁ t₁ n₁) (h₂ : Exchanges old new s₂ t₂ n₂) :
    Exchanges old new (s₁ ++ d :: s₂) (t₁ ++ d :: t₂) (n₁ + n₂) := by
  obtain ⟨hrep, hocc⟩ := replace_append_cons hold new hd s₁ s₂
  have hle₁ := h₁.count_le
  have hle₂ := h₂.count_le
  have hlen₁ := h₁.length_eq
  have hlen₂ := h₂.length_eq
  refine ⟨by omega, ?_, ?_⟩
  · simp only [length_append, length_cons, Nat.add_mul]
    omega
  · rw [hrep, hocc]
    constructor
    · intro heq
      have hr₁ := length_replace hold new s₁
      have hr₂ := length_replace hold new s₂
      by_cases hlen : old.length = new.length
      · -- nothing moves, so the two sides agree part by part
        rw [hlen] at hr₁ hlen₁
        obtain ⟨heq₁, heq₂⟩ := append_inj heq (by omega)
        rw [h₁.replace_eq_iff.mp heq₁, h₂.replace_eq_iff.mp (cons.inj heq₂).2]
      · -- every exchange changes the length by the same amount
        have hlength := congrArg length heq
        simp only [length_append, length_cons] at hlength
        have hsum : (occurrences old s₁ + occurrences old s₂) * old.length + (n₁ + n₂) * new.length =
            (occurrences old s₁ + occurrences old s₂) * new.length + (n₁ + n₂) * old.length := by
          simp only [Nat.add_mul]
          omega
        obtain ⟨k, hk⟩ := Nat.exists_eq_add_of_le (Nat.add_le_add hle₁ hle₂)
        rw [hk, Nat.add_mul (n₁ + n₂), Nat.add_mul (n₁ + n₂)] at hsum
        have hk0 : k * old.length = k * new.length := by omega
        rcases Nat.eq_zero_or_pos k with rfl | hpos
        · omega
        · exact absurd (Nat.eq_of_mul_eq_mul_left hpos hk0) hlen
    · intro hcount
      rw [h₁.replace_eq_iff.mpr (by omega), h₂.replace_eq_iff.mpr (by omega)]

end Exchanges

end ViewLint.Text
