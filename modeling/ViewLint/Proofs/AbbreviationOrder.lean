import ViewLint.Proofs.AsciiCase
import ViewLint.Proofs.Cutting
import ViewLint.Proofs.LocalChanges
import ViewLint.Proofs.Parents
import ViewLint.Rule.NamePattern

/-!
# The order of abbreviations

Abbreviations are tried one after another, longer ones first, each on what those before it have made of the
name. The order of those of one length does not matter as long as no two of them overlap in the name.

* `Text.local_replace`: writing a word in another case is local to where the word stands.
* **`NamePattern.Config.same_in_every_enumeration`**: the adjusted name and the verdict are then the same.
-/

namespace ViewLint

open List Convention

namespace Text

/-! ## Spellings -/

theorem upper_cons {c d : CodePoint} (h : upperChar c = [d]) (s : Text) : upper (c :: s) = d :: upper s := by
  rw [upper, flatMap_cons, h]
  rfl

/-- A text is the upper case of another one, character by character. -/
def Spells (s t : Text) : Prop := List.Forall₂ (fun c d => upperChar c = [d]) s t

namespace Spells

variable {s t a old new : Text}

theorem upper_eq (h : Spells s t) : upper s = t := by
  induction h with
  | nil => rfl
  | cons hc _ ih => rw [upper_cons hc, ih]

theorem of_append {r : Text} (h : Spells (old ++ r) t) (hold : Spells old a) : ∃ u, t = a ++ u ∧ Spells r u := by
  induction hold generalizing t with
  | nil => exact ⟨t, rfl, h⟩
  | cons hc _ ih =>
    cases h with
    | cons hd h =>
      obtain ⟨u, rfl, hu⟩ := ih h
      cases hc.symm.trans hd
      exact ⟨u, rfl, hu⟩

/-- Exchanging a spelling of a word for another one changes no word. -/
theorem replace (h : Spells s t) (hne : old ≠ []) (hold : Spells old a) (hnew : Spells new a) :
    Spells (replace old new s) t := by
  induction s using occurrence_induction hne generalizing t with
  | nil => rwa [replace_nil hne]
  | found s hp ih =>
    obtain ⟨r, rfl⟩ := hp
    obtain ⟨u, rfl, hu⟩ := h.of_append hold
    rw [replace_of_start hne (prefix_append old r)]
    rw [drop_left] at ih ⊢
    exact rel_append hnew (ih hu)
  | other c r hp ih =>
    rw [replace_cons hne hp]
    cases h with
    | cons hc h => exact .cons hc (ih h)

theorem occursIn (h : Spells s t) (hold : Spells old a) :
    OccursIn (fun j => ∃ i, a <+: t.drop i ∧ i ≤ j ∧ j < i + a.length) old s := by
  intro i hi j hj
  obtain ⟨r, hr⟩ := hi
  have hdrop : Spells (s.drop i) (t.drop i) := forall₂_drop i h
  rw [← hr] at hdrop
  obtain ⟨u, hu, -⟩ := hdrop.of_append hold
  rw [hold.length_eq] at hj
  exact ⟨i, ⟨u, hu.symm⟩, by omega, by omega⟩

end Spells

/-- The places where a word stands. -/
def Covered (t a : Text) (j : Nat) : Prop := ∃ i, a <+: t.drop i ∧ i ≤ j ∧ j < i + a.length

theorem local_replace {t a old new : Text} (hold : Spells old a) (hnew : Spells new a) :
    Local (Spells · t) (Covered t a) (replace old new) := by
  have hlength : new.length = old.length := hnew.length_eq.trans hold.length_eq.symm
  by_cases hne : old = []
  · subst hne
    obtain rfl := eq_nil_of_length_eq_zero hlength
    have hid : replace [] [] = id := by
      funext s
      simp [Text.replace]
    exact hid ▸ Local.id
  · exact {
      keeps := fun s hs => hs.replace hne hold hnew
      frame := fun s hs i hi => replace_frame hne hlength (hs.occursIn hold) hi
      agrees := fun s s' hs hs' h i hi => replace_agrees hne hlength (hs.length_eq.trans hs'.length_eq.symm)
        (hs.occursIn hold) (hs'.occursIn hold) h hi }

section Capitals

variable {a : Text} (ha : ∀ d ∈ a, isPlainCapital d = true)

include ha

theorem spells_self : Spells a a := forall₂_same.mpr fun d hd => (of_isPlainCapital (ha d hd)).1

theorem spells_lowerFrom (before : Text) : Spells (lowerFrom before a) a := by
  induction a generalizing before with
  | nil => exact .nil
  | cons d a ih =>
    obtain ⟨hd, ha⟩ := forall_mem_cons.mp ha
    obtain ⟨-, hsigma, ⟨l, hl, hl'⟩, -⟩ := of_isPlainCapital hd
    rw [lowerFrom, lowerAt, if_neg (by simpa using hsigma), hl]
    exact .cons hl' (ih ha _)

theorem spells_capitalize : Spells (capitalize a) a := by
  cases a with
  | nil => exact .nil
  | cons d a =>
    obtain ⟨hd, ha⟩ := forall_mem_cons.mp ha
    obtain ⟨-, -, -, t, ht, ht'⟩ := of_isPlainCapital hd
    rw [capitalize, ht]
    exact .cons ht' (spells_lowerFrom ha _)

end Capitals

theorem spells_upper {s : Text} (h : ∀ c ∈ s, isPlain c = true) :
    Spells s (upper s) ∧ ∀ d ∈ upper s, isPlainCapital d = true := by
  induction s with
  | nil => exact ⟨.nil, nofun⟩
  | cons c s ih =>
    obtain ⟨hc, hs⟩ := forall_mem_cons.mp h
    obtain ⟨d, hd, hcapital, -⟩ := of_isPlain hc
    obtain ⟨hspells, hcapitals⟩ := ih hs
    rw [upper_cons hd]
    exact ⟨.cons hd hspells, forall_mem_cons.mpr ⟨hcapital, hcapitals⟩⟩

end Text

/-! ## Abbreviations in titles -/

namespace Naming

open Text

/-- The upper case of a character is one character, which stays as it is and is blank only for a blank. -/
def Steady (c : CodePoint) : Prop := ∃ d, upperChar c = [d] ∧ upperChar d = [d] ∧ isBlank d = isBlank c

/-- A word: not empty, and without blanks. -/
def IsWord (w : Text) : Prop := w ≠ [] ∧ ∀ c ∈ w, isBlank c = false

theorem isWord_of_mem_blankSplit {s w : Text} (h : w ∈ blankSplit s) : IsWord w ∧ ∀ c ∈ w, c ∈ s := by
  obtain ⟨hw, hne⟩ := mem_filter.mp h
  exact ⟨⟨by simpa using hne, fun c hc => (mem_of_mem_splitWhere hw hc).2⟩, fun c hc => (mem_of_mem_splitWhere hw hc).1⟩

/-- Words that are joined by spaces are found again. -/
theorem splitWhere_join {ws : List Text} (hne : ws ≠ []) (h : ∀ w ∈ ws, ∀ c ∈ w, isBlank c = false) :
    splitWhere isBlank (join " " ws) = ws := by
  induction ws with
  | nil => exact absurd rfl hne
  | cons w ws ih =>
    obtain ⟨hw, hws⟩ := forall_mem_cons.mp h
    by_cases hnil : ws = []
    · subst hnil
      exact splitWhere_of_forall hw
    · have hspace : join " " (w :: ws) = w ++ .char ' ' :: join " " ws := by
        rw [join_cons_of_ne_nil _ _ hnil, append_assoc]
        rfl
      rw [hspace, splitWhere_append_cons _ hw (by decide), ih hnil hws]

theorem blankSplit_join {ws : List Text} (h : ∀ w ∈ ws, IsWord w) : blankSplit (join " " ws) = ws := by
  by_cases hnil : ws = []
  · subst hnil
    rfl
  · rw [blankSplit, splitWhere_join hnil fun w hw => (h w hw).2, filter_eq_self]
    exact fun w hw => by simpa using (h w hw).1

/-- A word in capitals if it is an abbreviation. -/
def capitalizeWord (a w : Text) : Text := if upper w == upper a then upper a else w

theorem capitalizeWords_eq (s a : Text) : capitalizeWords s a = join " " ((blankSplit s).map (capitalizeWord a)) := rfl

theorem upper_of_steady {w : Text} (h : ∀ c ∈ w, Steady c) :
    upper (upper w) = upper w ∧ (∀ d ∈ upper w, Steady d) ∧ (IsWord w → IsWord (upper w)) := by
  induction w with
  | nil => exact ⟨rfl, forall_mem_nil _, fun h => h⟩
  | cons c w ih =>
    obtain ⟨⟨d, hd, hdd, hblank⟩, hw⟩ := forall_mem_cons.mp h
    obtain ⟨hupper, hsteady, -⟩ := ih hw
    rw [upper_cons hd, upper_cons hdd, hupper]
    refine ⟨rfl, forall_mem_cons.mpr ⟨⟨d, hdd, hdd, rfl⟩, hsteady⟩, fun hword => ⟨by simp, ?_⟩⟩
    obtain ⟨hc, hrest⟩ := forall_mem_cons.mp hword.2
    refine forall_mem_cons.mpr ⟨hblank.trans hc, ?_⟩
    by_cases hnil : w = []
    · subst hnil
      exact forall_mem_nil _
    · exact (ih hw).2.2 ⟨hnil, hrest⟩ |>.2

/-- The two ways to write a word. -/
theorem capitalizeWord_cases (a w : Text) :
    upper w = upper a ∧ capitalizeWord a w = upper w ∨ upper w ≠ upper a ∧ capitalizeWord a w = w := by
  rw [capitalizeWord]
  by_cases h : upper w = upper a
  · exact .inl ⟨h, by simp [h]⟩
  · exact .inr ⟨h, by simp [h]⟩

theorem capitalizeWord_comm {w : Text} (h : ∀ c ∈ w, Steady c) (a b : Text) :
    capitalizeWord b (capitalizeWord a w) = capitalizeWord a (capitalizeWord b w) := by
  have hupper := (upper_of_steady h).1
  have hself (x : Text) : capitalizeWord x (upper w) = upper w := by
    obtain ⟨-, hx⟩ | ⟨-, hx⟩ := capitalizeWord_cases x (upper w)
    · rw [hx, hupper]
    · exact hx
  obtain ⟨-, ha⟩ | ⟨-, ha⟩ := capitalizeWord_cases a w <;> obtain ⟨-, hb⟩ | ⟨-, hb⟩ := capitalizeWord_cases b w <;>
    simp only [ha, hb, hself]

theorem capitalizeWords_comm {s : Text} (h : ∀ c ∈ s, Steady c) (a b : Text) :
    capitalizeWords (capitalizeWords s a) b = capitalizeWords (capitalizeWords s b) a := by
  have hwords (x : Text) : ∀ w ∈ (blankSplit s).map (capitalizeWord x), IsWord w := by
    intro w hw
    obtain ⟨v, hv, rfl⟩ := mem_map.mp hw
    obtain ⟨hword, hsub⟩ := isWord_of_mem_blankSplit hv
    obtain ⟨-, hx⟩ | ⟨-, hx⟩ := capitalizeWord_cases x v <;> rw [hx]
    · exact (upper_of_steady fun c hc => h c (hsub c hc)).2.2 hword
    · exact hword
  simp only [capitalizeWords_eq]
  rw [blankSplit_join (hwords a), blankSplit_join (hwords b), map_map, map_map]
  refine congrArg (join " ") (map_congr_left fun w hw => ?_)
  exact capitalizeWord_comm (fun c hc => h c ((isWord_of_mem_blankSplit hw).2 c hc)) a b

theorem steady_capitalizeWords {s : Text} (h : ∀ c ∈ s, Steady c) (a : Text) : ∀ c ∈ capitalizeWords s a, Steady c := by
  intro c hc
  rw [capitalizeWords_eq] at hc
  obtain hc | ⟨w, hw, hc⟩ := mem_join hc
  · obtain rfl := mem_singleton.mp hc
    exact ⟨.char ' ', by decide, by decide, rfl⟩
  · obtain ⟨v, hv, rfl⟩ := mem_map.mp hw
    have hsteady : ∀ c ∈ v, Steady c := fun c hc => h c ((isWord_of_mem_blankSplit hv).2 c hc)
    obtain ⟨-, hx⟩ | ⟨-, hx⟩ := capitalizeWord_cases a v <;> rw [hx] at hc
    · exact (upper_of_steady hsteady).2.1 c hc
    · exact hsteady c hc

end Naming

/-! ## The order of one length -/

namespace Convention

variable {name s : Text} {k : Convention}

open Naming Text

/-- **What a convention does with an abbreviation is local to where it stands.** -/
theorem local_adjustOne (hk : k = pascal ∨ k = camel ∨ k = snake ∨ k = kebab) (t : Text) {a : Text}
    (ha : ∀ d ∈ a, isPlainCapital d = true) : Local (Spells · t) (Covered t a) (k.adjustOne · a) := by
  have hself := spells_self ha
  have hsmall : Spells (Text.lower a) a := spells_lowerFrom ha []
  have hcapital := spells_capitalize ha
  have hupper : upper a = a := hself.upper_eq
  have hcapitalize : Local (Spells · t) (Covered t a) (capitalizeAbbreviation · a) := by
    simp only [capitalizeAbbreviation, hupper]
    exact (local_replace hcapital hself).comp ((local_replace hsmall hself).comp (local_replace hself hself))
  have hreplace : Local (Spells · t) (Covered t a) (Text.replace (upper a) (Text.lower a)) := by
    rw [hupper]
    exact local_replace hself hsmall
  obtain rfl | rfl | rfl | rfl := hk
  · exact hcapitalize
  · exact hcapitalize
  · exact hreplace
  · exact hreplace

/-- No occurrence of a word overlaps with one of another word. -/
def Clear (t a b : Text) : Prop :=
  ∀ i < t.length, ∀ j < t.length, a <+: t.drop i → b <+: t.drop j → i + a.length ≤ j ∨ j + b.length ≤ i

instance (t a b : Text) : Decidable (Clear t a b) := by unfold Clear; infer_instance

/-- No two abbreviations of one length occur in a text. -/
def NoTies (abbreviations : List Text) (t : Text) : Prop :=
  ∀ a ∈ abbreviations, ∀ b ∈ abbreviations, holds t a = true → holds t b = true → a.length = b.length → a = b

/-- No two abbreviations of one length overlap in a name, as far as the convention looks inside words. -/
def Undisputed (k : Convention) (abbreviations : List Text) (s : Text) : Prop :=
  match k with
  | screaming | lower => True
  | title => ∀ c ∈ s, isPlain c = true
  | pascal | camel | snake | kebab => (∀ c ∈ s, isPlain c = true) ∧
    ∀ a ∈ abbreviations, ∀ b ∈ abbreviations, a ≠ b → a.length = b.length → Clear (upper s) a b

/-- The order of abbreviations of one length does not matter for a name: no two of them occur in it, or at
least none overlap. -/
def Indifferent (k : Convention) (abbreviations : List Text) (s : Text) : Prop :=
  NoTies abbreviations (upper s) ∨ k.Undisputed abbreviations s

theorem Undisputed.mono {xs ys : List Text} (h : k.Undisputed xs s)
    (hsub : ∀ a ∈ ys, a ∈ xs) : k.Undisputed ys s := by
  cases k with
  | screaming | lower => trivial
  | title => exact h
  | pascal | camel | snake | kebab => exact ⟨h.1, fun a ha b hb => h.2 a (hsub a ha) b (hsub b hb)⟩

theorem Indifferent.mono {xs ys : List Text} (h : k.Indifferent xs s)
    (hsub : ∀ a ∈ ys, a ∈ xs) : k.Indifferent ys s :=
  h.imp (fun h a ha b hb => h a (hsub a ha) b (hsub b hb)) (·.mono hsub)

def adjustStep (k : Convention) (name s a : Text) : Text :=
  if holds (upper name) a then k.adjustOne s a else s

theorem adjust_eq (k : Convention) (order : List Text) (name : Text) :
    k.adjust order name = order.foldl (k.adjustStep name) name := rfl

theorem local_adjustStep (hk : k = pascal ∨ k = camel ∨ k = snake ∨ k = kebab)
    (hplain : ∀ c ∈ name, isPlain c = true) (a : Text) :
    Local (Spells · (upper name)) (Covered (upper name) a) (k.adjustStep name · a) := by
  unfold adjustStep
  cases hfound : holds (upper name) a with
  | false => exact Local.id
  | true =>
    have hoccurs : a <:+: upper name := holds_iff_isInfix.mp hfound
    exact local_adjustOne hk _ fun d hd => (spells_upper hplain).2 d (hoccurs.subset hd)

theorem clear_covered {t a b : Text} (h : Clear t a b) {j : Nat} (ha : Covered t a j) : ¬ Covered t b j := by
  rintro ⟨i', hb, hle', hlt'⟩
  obtain ⟨i, ha, hle, hlt⟩ := ha
  have hlength {w : Text} {i : Nat} (hw : w <+: t.drop i) (hpos : 0 < w.length) : i < t.length := by
    have := hw.length_le
    rw [length_drop] at this
    omega
  have := h i (hlength ha (by omega)) i' (hlength hb (by omega)) ha hb
  omega

/-- In all that the steps lead to from a name, two steps of one length may change places. -/
def StepsCommute (k : Convention) (abbreviations : List Text) (name : Text) : Prop :=
  ∃ D : Text → Prop, D name ∧ (∀ s, ∀ a ∈ abbreviations, D s → D (k.adjustStep name s a)) ∧
    ∀ s, D s → ∀ a ∈ abbreviations, ∀ b ∈ abbreviations, a ≠ b → a.length = b.length →
      k.adjustStep name (k.adjustStep name s a) b = k.adjustStep name (k.adjustStep name s b) a

theorem Indifferent.stepsCommute {abbreviations : List Text} (h : k.Indifferent abbreviations name) :
    k.StepsCommute abbreviations name := by
  rcases h with h | h
  · refine ⟨fun _ => True, trivial, fun _ _ _ _ => trivial, fun s _ a ha b hb hne hlength => ?_⟩
    unfold adjustStep
    by_cases hfound : holds (upper name) a = true
    · have hother : holds (upper name) b ≠ true := fun hb' => hne (h a ha b hb hfound hb' hlength)
      simp [hother]
    · simp [hfound]
  -- The conventions that look for abbreviations inside words
  have hinside (hk : k = pascal ∨ k = camel ∨ k = snake ∨ k = kebab) (hplain : ∀ c ∈ name, isPlain c = true)
      (hclear : ∀ a ∈ abbreviations, ∀ b ∈ abbreviations, a ≠ b → a.length = b.length → Clear (upper name) a b) :
      k.StepsCommute abbreviations name := by
    have hlocal := local_adjustStep hk hplain
    exact ⟨(Spells · (upper name)), (spells_upper hplain).1, fun s a _ hs => (hlocal a).keeps s hs,
      fun s hs a ha b hb hne hlength =>
        (hlocal a).comm (hlocal b) (fun j => clear_covered (hclear a ha b hb hne hlength)) hs⟩
  cases k with
  | pascal | camel | snake | kebab => exact hinside (by simp) h.1 h.2
  | screaming | lower =>
    refine ⟨fun _ => True, trivial, fun _ _ _ _ => trivial, fun s _ a _ b _ _ _ => ?_⟩
    simp only [adjustStep, adjustOne]
    split <;> split <;> rfl
  | title =>
    have hsteady : ∀ c ∈ name, Steady c := by
      intro c hc
      obtain ⟨d, hd, hcapital, hblank⟩ := of_isPlain (h c hc)
      exact ⟨d, hd, (of_isPlainCapital hcapital).1, hblank⟩
    refine ⟨fun s => ∀ c ∈ s, Steady c, hsteady, fun s a _ hs => ?_, fun s hs a _ b _ _ _ => ?_⟩
    · unfold adjustStep
      split
      · exact steady_capitalizeWords hs a
      · exact hs
    · unfold adjustStep
      split <;> split <;> first | rfl | exact capitalizeWords_comm hs a b

theorem pairwise_longestFirst (e : List Text) : (longestFirst e).Pairwise fun a b => b.length ≤ a.length := by
  have h : (longestFirst e).Pairwise fun a b => decide (b.length ≤ a.length) = true := by
    refine pairwise_mergeSort (fun a b c hab hbc => ?_) (fun a b => ?_) e
    · simp only [decide_eq_true_eq] at *
      omega
    · simp only [Bool.or_eq_true, decide_eq_true_eq]
      omega
  simpa using h

theorem adjust_eq_of_perm {e₁ e₂ : List Text} (hperm : e₁.Perm e₂)
    (h : k.Indifferent e₁ name) : k.adjust (longestFirst e₁) name = k.adjust (longestFirst e₂) name := by
  obtain ⟨D, hD, hkeeps, hcomm⟩ := h.stepsCommute
  have hsort (e : List Text) : (longestFirst e).Perm e := mergeSort_perm e _
  have hmem {a : Text} (ha : a ∈ longestFirst e₁) : a ∈ e₁ := (hsort e₁).subset ha
  rw [adjust_eq, adjust_eq]
  exact foldl_eq_of_perm (D := D) length (fun s a ha => hkeeps s a (hmem ha))
    (fun s hs a ha b hb => hcomm s hs a (hmem ha) b (hmem hb)) ((hsort e₁).trans (hperm.trans (hsort e₂).symm))
    (pairwise_longestFirst e₁) (pairwise_longestFirst e₂) hD

end Convention

/-! ## Sets of abbreviations -/

namespace Text

/-- The state of a search for repetitions: what has been seen, without repetitions. -/
theorem foldl_dedup (xs seen : List Text) (hseen : seen.Nodup) :
    (xs.foldl (fun seen x => if seen.contains x then seen else x :: seen) seen).Nodup ∧
      ∀ a, a ∈ xs.foldl (fun seen x => if seen.contains x then seen else x :: seen) seen ↔ a ∈ seen ∨ a ∈ xs := by
  induction xs generalizing seen with
  | nil => exact ⟨hseen, fun a => by simp⟩
  | cons x xs ih =>
    grind

end Text

namespace NamePattern.Config

open Naming

/-- A list goes through a set once. -/
structure Enumerates (e set : List Text) : Prop where
  nodup : e.Nodup
  mem_iff : ∀ a, a ∈ e ↔ a ∈ set

theorem Enumerates.perm {e₁ e₂ set : List Text} (h₁ : Enumerates e₁ set) (h₂ : Enumerates e₂ set) : e₁.Perm e₂ :=
  (perm_ext_iff_of_nodup h₁.nodup h₂.nodup).mpr fun a => (h₁.mem_iff a).trans (h₂.mem_iff a).symm

theorem enumerates_sort_dedup (set : List Text) : Enumerates (Text.sort (Text.dedup set)) set := by
  obtain ⟨hnodup, hiff⟩ := Text.foldl_dedup set [] nodup_nil
  have hperm : (Text.sort (Text.dedup set)).Perm (Text.dedup set) := mergeSort_perm _ _
  exact ⟨hperm.nodup_iff.mpr ((reverse_perm _).nodup_iff.mpr hnodup),
    fun a => hperm.mem_iff.trans (mem_reverse.trans ((hiff a).trans (by simp)))⟩

/-- A name for which the order does not matter is adjusted to the same name in all enumerations. -/
theorem adjustBy_eq {c : Config} {kind : NodeKind} {name : Json} {e₁ e₂ : List Text}
    (h₁ : Enumerates e₁ c.abbreviationTexts) (h₂ : Enumerates e₂ c.abbreviationTexts)
    (h : ∀ value k s, c.writingConvention kind = .ok value → value.str?.bind ofName? = some k →
      name = .str s → k.Indifferent c.abbreviationTexts s) :
    c.adjustBy (longestFirst e₁) kind name = c.adjustBy (longestFirst e₂) kind name := by
  unfold adjustBy
  cases hvalue : c.writingConvention kind with
  | error e => rfl
  | ok value =>
    cases name with
    | str s =>
      have hsame : (value.str?.bind ofName?).map (·.adjust (longestFirst e₁) s) =
          (value.str?.bind ofName?).map (·.adjust (longestFirst e₂) s) := by
        refine Option.map_congr fun k hk => adjust_eq_of_perm (h₁.perm h₂) ?_
        exact (h value k s hvalue hk rfl).mono fun a ha => (h₁.mem_iff a).mp ha
      simp only [bind, Except.bind, hsame]
    | _ => rfl

theorem validateBy_eq {c : Config} {kind : NodeKind} {name : Json} {o₁ o₂ : List Text}
    (h : c.adjustBy o₁ kind name = c.adjustBy o₂ kind name) :
    c.validateBy o₁ kind name = c.validateBy o₂ kind name := by
  unfold validateBy validateForm
  rw [h]

/-- **However the set of abbreviations is gone through, the adjusted name and the verdict are the same**, if
no two abbreviations of one length occur in the name, or none overlap as far as the convention looks inside
words. -/
theorem same_in_every_enumeration (c : Config) (kind : NodeKind) (name : Json) (e₁ e₂ : List Text)
    (h₁ : Enumerates e₁ c.abbreviationTexts) (h₂ : Enumerates e₂ c.abbreviationTexts)
    (h : ∀ value k s, c.writingConvention kind = .ok value → value.str?.bind ofName? = some k →
      name = .str s → k.Indifferent c.abbreviationTexts s) :
    c.adjustBy (longestFirst e₁) kind name = c.adjustBy (longestFirst e₂) kind name ∧
      c.validateBy (longestFirst e₁) kind name = c.validateBy (longestFirst e₂) kind name ∧
      c.validate kind name = c.validateBy (longestFirst e₁) kind name :=
  ⟨adjustBy_eq h₁ h₂ h, validateBy_eq (adjustBy_eq h₁ h₂ h),
    validateBy_eq (adjustBy_eq (enumerates_sort_dedup _) h₁ h)⟩

def shortening (abbreviations : List Text) : Config where
  scope := { targets := .kinds [.component], severity := .warning }
  convention := .str pascal.name
  pattern := .str pascal.pattern
  description := pascal.description
  abbreviations := abbreviations.map .str

theorem enumerates_swap (a b : Text) (h : a ≠ b) :
    Enumerates [a, b] (shortening [a, b]).abbreviationTexts ∧ Enumerates [b, a] (shortening [a, b]).abbreviationTexts :=
  ⟨⟨by simp [h], fun _ => Iff.rfl⟩, by simp [h.symm], fun _ => (Perm.swap _ _ []).mem_iff⟩

/-- Two abbreviations that can overlap, and do not in this name. -/
theorem same_in_every_enumeration_apart :
    (shortening ["TCP", "CPU"]).validateBy (longestFirst ["TCP", "CPU"]) .component (.str "tcpOnCpu") =
      (shortening ["TCP", "CPU"]).validateBy (longestFirst ["CPU", "TCP"]) .component (.str "tcpOnCpu") := by
  obtain ⟨h₁, h₂⟩ := enumerates_swap "TCP" "CPU" (by decide)
  refine (same_in_every_enumeration _ .component (.str "tcpOnCpu") _ _ h₁ h₂ ?_).2.1
  intro value k s hvalue hk hs
  cases hvalue
  cases hk
  cases hs
  have hascii : ∀ c ∈ Text.ofString "tcpOnCpu", isAscii c = true := by decide
  exact .inr ⟨fun c hc => isPlain_ascii (hascii c hc), by decide +kernel⟩

/-- In one order the name is in PascalCase and in the other it is not. -/
theorem not_same_in_every_enumeration_tcpu : ¬ ∀ e₁ e₂, Enumerates e₁ (shortening ["TCP", "CPU"]).abbreviationTexts →
    Enumerates e₂ (shortening ["TCP", "CPU"]).abbreviationTexts →
    (shortening ["TCP", "CPU"]).validateBy (longestFirst e₁) .component (.str "tcpu") =
      (shortening ["TCP", "CPU"]).validateBy (longestFirst e₂) .component (.str "tcpu") := by
  intro hsame
  obtain ⟨h₁, h₂⟩ := enumerates_swap "TCP" "CPU" (by decide)
  have hsorted {e : List Text} (h : e.Pairwise fun a b => decide (b.length ≤ a.length) = true) : longestFirst e = e :=
    mergeSort_of_pairwise h
  have hright : passes isEmpty
      ((shortening ["TCP", "CPU"]).validateBy ["TCP", "CPU"] .component (.str "tcpu")) = true := by decide +kernel
  have hwrong : passes isEmpty
      ((shortening ["TCP", "CPU"]).validateBy ["CPU", "TCP"] .component (.str "tcpu")) = false := by decide +kernel
  have heq := hsame _ _ h₁ h₂
  rw [hsorted (by decide), hsorted (by decide)] at heq
  rw [heq, hwrong] at hright
  cases hright

end NamePattern.Config

end ViewLint
