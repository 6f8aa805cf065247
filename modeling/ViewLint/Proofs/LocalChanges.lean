import Mathlib.Data.List.Forall2
import ViewLint.Proofs.Replace

/-!
# Changes that stay at their places

A function of texts is local to some places if it changes a text only there, and if what it makes of these
places depends on nothing else. Two functions that are local to different places may change places. The
exchange of a text for another one of the same length is local to the occurrences of the text.

* `Text.Local`, `Text.Local.comp`, **`Text.Local.comm`**: local functions.
* **`foldl_eq_of_perm`**: steps that come in the order of a key, in whatever order those of one key come.
-/

namespace ViewLint

open List

namespace Text

/-! ## Local functions -/

/-- On the texts of a class, a function changes only some places, and what it makes of them depends on them
alone. -/
structure Local (D : Text → Prop) (P : Nat → Prop) (f : Text → Text) : Prop where
  keeps : ∀ s, D s → D (f s)
  frame : ∀ s, D s → ∀ i, ¬ P i → (f s)[i]? = s[i]?
  agrees : ∀ s t, D s → D t → (∀ i, P i → s[i]? = t[i]?) → ∀ i, P i → (f s)[i]? = (f t)[i]?

namespace Local

variable {D : Text → Prop} {P Q : Nat → Prop} {f g : Text → Text}

theorem id : Local D P id := ⟨fun _ h => h, fun _ _ _ _ => rfl, fun _ _ _ _ h => h⟩

theorem comp (hg : Local D P g) (hf : Local D P f) : Local D P (g ∘ f) where
  keeps s hs := hg.keeps _ (hf.keeps s hs)
  frame s hs i hi := (hg.frame _ (hf.keeps s hs) i hi).trans (hf.frame s hs i hi)
  agrees s t hs ht h := hg.agrees _ _ (hf.keeps s hs) (hf.keeps t ht) (hf.agrees s t hs ht h)

theorem comm (hf : Local D P f) (hg : Local D Q g) (hdisjoint : ∀ i, P i → ¬ Q i) {s : Text} (hs : D s) :
    g (f s) = f (g s) := by
  refine ext_getElem? fun i => ?_
  have hfs := hf.keeps s hs
  have hgs := hg.keeps s hs
  by_cases hP : P i
  · have hsame : ∀ j, P j → (g s)[j]? = s[j]? := fun j hj => hg.frame s hs j (hdisjoint j hj)
    rw [hg.frame _ hfs i (hdisjoint i hP), hf.agrees _ _ hgs hs hsame i hP]
  · by_cases hQ : Q i
    · have hsame : ∀ j, Q j → (f s)[j]? = s[j]? := fun j hj => hf.frame s hs j fun hPj => hdisjoint j hPj hj
      rw [hf.frame _ hgs i hP, hg.agrees _ _ hfs hs hsame i hQ]
    · rw [hg.frame _ hfs i hQ, hf.frame s hs i hP, hf.frame _ hgs i hP, hg.frame s hs i hQ]

end Local

/-! ## Exchanges -/

section Exchange

variable {P : Nat → Prop} {old new s t : Text} (hold : old ≠ []) (hlength : new.length = old.length)

/-- The occurrences of a text lie at some places. -/
def OccursIn (P : Nat → Prop) (old s : Text) : Prop := ∀ i, old <+: s.drop i → ∀ j < old.length, P (i + j)

theorem OccursIn.drop (h : OccursIn P old s) (n : Nat) : OccursIn (fun i => P (n + i)) old (s.drop n) := by
  intro i hi j hj
  rw [drop_drop] at hi
  simpa [Nat.add_assoc] using h (n + i) hi j hj

theorem prefix_of_agrees (hs : OccursIn P old s) (hstart : old <+: s)
    (hagree : ∀ i, P i → s[i]? = t[i]?) : old <+: t := by
  rw [prefix_iff_getElem?] at hstart ⊢
  intro i hi
  have hP : P (0 + i) := hs 0 (by rwa [drop_zero, prefix_iff_getElem?]) i hi
  rw [Nat.zero_add] at hP
  rw [← hagree i hP, hstart i hi]

include hold hlength

theorem replace_frame (hs : OccursIn P old s) {i : Nat} (hi : ¬ P i) : (replace old new s)[i]? = s[i]? := by
  induction s using occurrence_induction hold generalizing P i with
  | nil => rw [replace_nil hold]
  | found s hp ih =>
    rw [replace_of_start hold hp]
    by_cases hlt : i < new.length
    · exact absurd (by simpa using hs 0 (by simpa using hp) i (hlength ▸ hlt)) hi
    · obtain ⟨k, rfl⟩ := Nat.exists_eq_add_of_le (Nat.le_of_not_lt hlt)
      rw [getElem?_append_right (Nat.le_add_right _ _), Nat.add_sub_cancel_left,
        ih (hs.drop old.length) (by rwa [← hlength]), getElem?_drop, hlength]
  | other c r hp ih =>
    rw [replace_cons hold hp]
    cases i with
    | zero => rfl
    | succ i =>
      refine ih (hs.drop 1) ?_
      rwa [Nat.add_comm]

/-- What an exchange makes of the occurrences of the text depends on them alone. -/
theorem replace_agrees (heq : s.length = t.length) (hs : OccursIn P old s)
    (ht : OccursIn P old t) (hagree : ∀ i, P i → s[i]? = t[i]?) {i : Nat} (hi : P i) :
    (replace old new s)[i]? = (replace old new t)[i]? := by
  induction s using occurrence_induction hold generalizing P t i with
  | nil =>
    obtain rfl := eq_nil_of_length_eq_zero heq.symm
    rfl
  | found s hp ih =>
    have hp' := prefix_of_agrees hs hp hagree
    rw [replace_of_start hold hp, replace_of_start hold hp']
    by_cases hlt : i < new.length
    · rw [getElem?_append_left hlt, getElem?_append_left hlt]
    · obtain ⟨k, rfl⟩ := Nat.exists_eq_add_of_le (Nat.le_of_not_lt hlt)
      rw [getElem?_append_right (Nat.le_add_right _ _), getElem?_append_right (Nat.le_add_right _ _),
        Nat.add_sub_cancel_left]
      refine ih (by simp [heq]) (hs.drop old.length) (ht.drop old.length) (fun j hj => ?_) (by rwa [← hlength])
      rw [getElem?_drop, getElem?_drop, hagree _ hj]
  | other c r hp ih =>
    cases t with
    | nil => cases heq
    | cons d t =>
      have hp' : ¬ old <+: d :: t := fun h => hp (prefix_of_agrees ht h fun j hj => (hagree j hj).symm)
      rw [replace_cons hold hp, replace_cons hold hp']
      cases i with
      | zero => exact hagree 0 hi
      | succ i =>
        refine ih (Nat.succ.inj heq) (hs.drop 1) (ht.drop 1) (fun j hj => ?_) (by rwa [Nat.add_comm])
        have := hagree _ hj
        rwa [Nat.add_comm] at this

end Exchange

end Text

/-! ## Steps in the order of a key -/

/-- A step that may change places with those before it is taken to the front. -/
theorem foldl_append_cons {α β : Type} {f : β → α → β} {D : β → Prop} {a : α} {front : List α} (back : List α)
    (hkeeps : ∀ s, ∀ b ∈ front, D s → D (f s b)) (hcomm : ∀ s, D s → ∀ b ∈ front, f (f s a) b = f (f s b) a)
    {s : β} (hs : D s) : (front ++ a :: back).foldl f s = (a :: (front ++ back)).foldl f s := by
  induction front generalizing s with
  | nil => rfl
  | cons b front ih =>
    have hnext := ih (fun s c hc => hkeeps s c (mem_cons_of_mem b hc))
      (fun s hs c hc => hcomm s hs c (mem_cons_of_mem b hc)) (hkeeps s b mem_cons_self hs)
    rw [cons_append, foldl_cons, hnext, foldl_cons, ← hcomm s hs b mem_cons_self]
    rfl

/-- **Steps that may change places if they have one key** lead to the same end in all orders by that key. -/
theorem foldl_eq_of_perm {α β : Type} {f : β → α → β} {D : β → Prop} (key : α → Nat) {l₁ l₂ : List α}
    (hkeeps : ∀ s, ∀ a ∈ l₁, D s → D (f s a))
    (hcomm : ∀ s, D s → ∀ a ∈ l₁, ∀ b ∈ l₁, a ≠ b → key a = key b → f (f s a) b = f (f s b) a)
    (hperm : l₁.Perm l₂) (h₁ : l₁.Pairwise fun a b => key b ≤ key a) (h₂ : l₂.Pairwise fun a b => key b ≤ key a)
    {s : β} (hs : D s) : l₁.foldl f s = l₂.foldl f s := by
  induction l₁ generalizing l₂ s with
  | nil => rw [hperm.nil_eq]
  | cons a l ih =>
    obtain ⟨front, back, rfl⟩ := append_of_mem (hperm.subset mem_cons_self)
    have hrest : l.Perm (front ++ back) := (hperm.trans perm_middle).cons_inv
    have hsub : ∀ b ∈ front, b ∈ a :: l := fun b hb => hperm.symm.subset (mem_append_left _ hb)
    obtain ⟨ha, hl⟩ := pairwise_cons.mp h₁
    -- In both orders larger keys come first, so what stands before `a` has its key.
    have hkey : ∀ b ∈ front, key b = key a := by
      intro b hb
      refine Nat.le_antisymm ?_ ((pairwise_append.mp h₂).2.2 b hb a mem_cons_self)
      obtain rfl | hb := mem_cons.mp (hsub b hb)
      · exact Nat.le_refl _
      · exact ha b hb
    have hfront : (front ++ a :: back).foldl f s = (a :: (front ++ back)).foldl f s := by
      refine foldl_append_cons back (fun s b hb => hkeeps s b (hsub b hb)) (fun s hs b hb => ?_) hs
      by_cases hab : a = b
      · rw [hab]
      · exact hcomm s hs a mem_cons_self b (hsub b hb) hab (hkey b hb).symm
    rw [hfront]
    refine ih (fun s b hb => hkeeps s b (mem_cons_of_mem a hb)) (fun s hs b hb c hc =>
      hcomm s hs b (mem_cons_of_mem a hb) c (mem_cons_of_mem a hc)) hrest hl ?_
      (hkeeps s a mem_cons_self hs)
    exact h₂.sublist (Sublist.append (Sublist.refl front) (sublist_cons_self a back))

end ViewLint
