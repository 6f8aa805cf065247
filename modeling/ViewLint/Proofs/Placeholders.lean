import ViewLint.Proofs.Replace
import ViewLint.View.Escapes

/-!
# Words that stand for escapes

Escapes are exchanged for words, and words for escapes, one kind after the other. Words begin with a character that is
found nowhere else in words and escapes, and so do escapes. Hence no exchange makes or breaks an occurrence for another
one: words are restored in one pass from the left, and a text in which some escapes have become words like the text.

* `Text.IsCode`: tables of escapes and their words.
* **`Text.IsCode.restoreAll_replace`**: what has become a word is restored.
* **`View.restore_preserve_iff`**: the texts that come back.
-/

namespace ViewLint

open List

namespace Text

variable {g h c : CodePoint} {a b new s u : Text} {p : Text × Text} {table : List (Text × Text)}

/-! ## One exchange -/

theorem replace_append_of_not_mem (hu : g ∉ u) : replace (g :: a) new (u ++ s) = u ++ replace (g :: a) new s := by
  induction u with
  | nil => rfl
  | cons c u ih =>
    rw [mem_cons, not_or] at hu
    rw [cons_append, replace_cons (cons_ne_nil g a) fun hp => hu.1 (cons_prefix_cons.mp hp).1, ih hu.2, cons_append]

theorem replace_start : replace (g :: a) new (g :: (a ++ s)) = new ++ replace (g :: a) new s := by
  rw [← cons_append, replace_of_start (cons_ne_nil g a) (prefix_append _ _), drop_left]

/-- A text without the first characters of both sides begins the result where it begins the source. -/
theorem prefix_replace_iff (hu : g ∉ u ∧ h ∉ u) : u <+: replace (g :: a) (h :: b) s ↔ u <+: s := by
  have hold : g :: a ≠ [] := cons_ne_nil g a
  induction s using occurrence_induction hold generalizing u with
  | nil => rw [replace_nil hold]
  | found s hp ih =>
    rw [replace_of_start hold hp]
    obtain ⟨r, rfl⟩ := hp
    cases u with
    | nil => simp
    | cons d u => simp_all [cons_prefix_cons, eq_comm]
  | other c s hp ih =>
    rw [replace_cons hold hp]
    cases u with
    | nil => simp
    | cons d u =>
      simp only [mem_cons, not_or] at hu
      rw [cons_prefix_cons, cons_prefix_cons]
      exact and_congr_right' (ih ⟨hu.1.2, hu.2.2⟩)

/-! ## The exchanges of a table -/

def restoreAll (table : List (Text × Text)) (s : Text) : Text := table.foldl (fun s p => replace p.2 p.1 s) s

/-- Escapes that begin with `h`, with words that begin with `g`. These characters are found nowhere else in them, and
no word begins another one. -/
structure IsCode (g h : CodePoint) (table : List (Text × Text)) : Prop where
  ne : g ≠ h
  pair : ∀ p ∈ table, ∃ a b, p = (h :: b, g :: a) ∧ (g ∉ a ∧ h ∉ a) ∧ g ∉ b ∧ h ∉ b
  apart : table.Pairwise fun p q => ¬ p.2 <+: q.2 ∧ ¬ q.2 <+: p.2

namespace IsCode

theorem tail (hcode : IsCode g h (p :: table)) : IsCode g h table :=
  ⟨hcode.ne, fun q hq => hcode.pair q (mem_cons_of_mem p hq), hcode.apart.of_cons⟩

theorem restoreAll_append (hcode : IsCode g h table) (hu : g ∉ u) :
    restoreAll table (u ++ s) = u ++ restoreAll table s := by
  induction table generalizing s with
  | nil => rfl
  | cons p table ih =>
    obtain ⟨a, b, rfl, -⟩ := hcode.pair p mem_cons_self
    rw [restoreAll, foldl_cons, replace_append_of_not_mem hu]
    exact ih hcode.tail

theorem restoreAll_nil (hcode : IsCode g h table) : restoreAll table [] = [] := by
  induction table with
  | nil => rfl
  | cons p table ih =>
    obtain ⟨a, b, rfl, -⟩ := hcode.pair p mem_cons_self
    rw [restoreAll, foldl_cons, replace_nil (cons_ne_nil g a)]
    exact ih hcode.tail

theorem restoreAll_word (hcode : IsCode g h table) (hp : (h :: b, g :: a) ∈ table) :
    restoreAll table (g :: (a ++ s)) = h :: (b ++ restoreAll table s) := by
  induction table generalizing s with
  | nil => cases hp
  | cons q table ih =>
    obtain ⟨_, _, heq, ha, hb⟩ := hcode.pair _ hp
    cases heq
    rw [restoreAll, foldl_cons]
    obtain rfl | hmem := mem_cons.mp hp
    · rw [replace_start]
      exact hcode.tail.restoreAll_append (by simp [hcode.ne, hb.1])
    · obtain ⟨a', b', rfl, -⟩ := hcode.pair q mem_cons_self
      have hapart := (pairwise_cons.mp hcode.apart).1 _ hmem
      rw [replace_cons (cons_ne_nil g a'), replace_append_of_not_mem ha.1]
      · exact ih hcode.tail hmem
      · rw [← cons_append]
        exact fun hpre => ( prefix_or_prefix_of_prefix hpre (prefix_append _ s)).elim hapart.1 hapart.2

theorem restoreAll_cons (hcode : IsCode g h table) (hstart : ∀ p ∈ table, ¬ p.2 <+: c :: s) :
    restoreAll table (c :: s) = c :: restoreAll table s := by
  induction table generalizing s with
  | nil => rfl
  | cons p table ih =>
    obtain ⟨a, b, rfl, -⟩ := hcode.pair p mem_cons_self
    obtain ⟨hp, hrest⟩ := forall_mem_cons.mp hstart
    rw [restoreAll, foldl_cons, replace_cons (cons_ne_nil g a) hp]
    refine ih hcode.tail fun q hq hpre => hrest q hq ?_
    obtain ⟨u, _, rfl, hu, -⟩ := hcode.pair q (mem_cons_of_mem _ hq)
    rwa [cons_prefix_cons, prefix_replace_iff hu, ← cons_prefix_cons] at hpre

theorem restoreAll_eq_self_iff (hcode : IsCode g h table) (s : Text) :
    restoreAll table s = s ↔ ∀ p ∈ table, ¬ p.2 <:+: s := by
  induction s with
  | nil =>
    refine iff_of_true hcode.restoreAll_nil fun p hp => ?_
    obtain ⟨a, b, rfl, -⟩ := hcode.pair p hp
    simp
  | cons c s ih =>
    by_cases hstart : ∀ p ∈ table, ¬ p.2 <+: c :: s
    · rw [hcode.restoreAll_cons hstart, cons_inj_right, ih]
      refine forall₂_congr fun p hp => ?_
      rw [infix_cons_iff, or_iff_right (hstart p hp)]
    · simp only [not_forall, not_not] at hstart
      obtain ⟨p, hp, hpre⟩ := hstart
      refine iff_of_false (fun heq => ?_) fun hfree => hfree p hp hpre.isInfix
      obtain ⟨a, b, rfl, -⟩ := hcode.pair p hp
      obtain ⟨rfl, r, rfl⟩ := cons_prefix_cons.mp hpre
      rw [hcode.restoreAll_word hp] at heq
      exact hcode.ne (cons.inj heq).1.symm

/-- What has become a word is restored. -/
theorem restoreAll_replace (hcode : IsCode g h table) (hp : p ∈ table) (s : Text) :
    restoreAll table (replace p.1 p.2 s) = restoreAll table s := by
  obtain ⟨a, b, rfl, ha, hb⟩ := hcode.pair p hp
  have hold : h :: b ≠ [] := cons_ne_nil h b
  induction s with
  | nil => rw [replace_nil hold]
  | cons c s ih =>
    by_cases hnew : h :: b <+: c :: s
    · obtain ⟨rfl, r, rfl⟩ := cons_prefix_cons.mp hnew
      have hkept := @restoreAll_append g h r (h :: b) table hcode (by simp [hcode.ne, hb.1])
      rw [replace_append_of_not_mem hb.2, hcode.restoreAll_append hb.1, hcode.restoreAll_append hb.1] at ih
      rw [replace_start, cons_append, hcode.restoreAll_word hp, append_cancel_left ih]
      exact hkept.symm
    rw [replace_cons hold hnew]
    by_cases hstart : ∀ q ∈ table, ¬ q.2 <+: c :: s
    · rw [hcode.restoreAll_cons, hcode.restoreAll_cons hstart, ih]
      intro q hq hpre
      obtain ⟨u, v, rfl, hu, -⟩ := hcode.pair q hq
      rw [cons_prefix_cons, prefix_replace_iff hu.symm, ← cons_prefix_cons] at hpre
      exact hstart _ hq hpre
    · simp only [not_forall, not_not] at hstart
      obtain ⟨q, hq, hpre⟩ := hstart
      obtain ⟨u, v, rfl, hu, -⟩ := hcode.pair q hq
      obtain ⟨rfl, r, rfl⟩ := cons_prefix_cons.mp hpre
      rw [replace_append_of_not_mem hu.2] at ih ⊢
      rw [hcode.restoreAll_append hu.1, hcode.restoreAll_append hu.1] at ih
      rw [hcode.restoreAll_word hq, hcode.restoreAll_word hq, append_cancel_left ih]

end IsCode

end Text

namespace View

open Text

/-! ## Escapes and their words -/

theorem isCode_placeholders : IsCode (.char 'U') (.char '\\') placeholders where
  ne := by decide
  pair := by simp [placeholders, ofString]
  apart := by decide

/-- **A text comes back from its preserved form exactly if it has none of the words in it.** -/
theorem restore_preserve_iff (t : Text) : restoreEscapes (preserveEscapes t) = t ↔
    ∀ word ∈ (["UNICODE_LT", "UNICODE_GT", "UNICODE_AMP", "UNICODE_EQ", "UNICODE_APOS"] : List Text), ¬ word <:+: t := by
  have hpreserved : restoreEscapes (preserveEscapes t) = restoreAll placeholders t := by
    refine foldlRecOn placeholders _ (motive := fun s => restoreAll placeholders s = restoreAll placeholders t) rfl ?_
    exact fun s hs p hp => (isCode_placeholders.restoreAll_replace hp s).trans hs
  rw [hpreserved, isCode_placeholders.restoreAll_eq_self_iff]
  exact (forall_mem_map (f := fun p : Text × Text => p.2) (P := fun word => ¬ word <:+: t)).symm

end View

end ViewLint
