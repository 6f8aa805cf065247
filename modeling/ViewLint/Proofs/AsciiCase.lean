import ViewLint.Naming.Convention
import ViewLint.Proofs.Replace
import ViewLint.Proofs.StoredText
import ViewLint.Text.Digits

/-!
# Case in ASCII

The tables of case act on ASCII by one run each: a letter has one capital and one small form, and everything
else stays as it is. So case goes character by character there, and writing words in another case is a change
of single characters.

* `isPlain`: characters at which case goes one to one, as it does in ASCII.
* **`Text.Recased.replace`**: texts in which some letters are written in one case.
-/

namespace ViewLint

open Naming List CodePoint

variable {c : CodePoint}

/-! ## Characters -/

def isAscii (c : CodePoint) : Bool := c.toNat < 128

def capitalOf (c : CodePoint) : CodePoint := if isSmall c then CodePoint.ofNat (c.toNat - 32) else c

def smallOf (c : CodePoint) : CodePoint := if isCapital c then CodePoint.ofNat (c.toNat + 32) else c

def isAsciiLetter (c : CodePoint) : Bool := isCapital c || isSmall c

def isAsciiAlnum (c : CodePoint) : Bool := isAsciiLetter c || isAsciiDigit c

theorem toNat_injective : Function.Injective toNat :=
  Function.LeftInverse.injective ofNat_toNat

theorem toNat_ofNat {n : Nat} (h : n < 0xD800) : (ofNat n).toNat = n := by
  have hchar : (char (Char.ofNat n)).toNat = n := by
    rw [CodePoint.toNat, Char.ofNat, dif_pos (.inl h)]
    rfl
  rw [ofNat]
  split
  · rw [if_neg (by omega), hchar]
  · exact hchar

theorem toNat_capitalOf (c : CodePoint) :
    (capitalOf c).toNat = if 97 ≤ c.toNat ∧ c.toNat ≤ 122 then c.toNat - 32 else c.toNat := by
  simp only [capitalOf, isSmall, Bool.and_eq_true, decide_eq_true_eq]
  split
  · exact toNat_ofNat (by omega)
  · rfl

theorem toNat_smallOf (c : CodePoint) :
    (smallOf c).toNat = if 65 ≤ c.toNat ∧ c.toNat ≤ 90 then c.toNat + 32 else c.toNat := by
  simp only [smallOf, isCapital, Bool.and_eq_true, decide_eq_true_eq]
  split
  · exact toNat_ofNat (by omega)
  · rfl

theorem isAscii_capitalOf (hc : isAscii c = true) : isAscii (capitalOf c) = true := by
  simp only [isAscii, toNat_capitalOf, decide_eq_true_eq] at hc ⊢
  split <;> omega

theorem isAscii_smallOf (hc : isAscii c = true) : isAscii (smallOf c) = true := by
  simp only [isAscii, toNat_smallOf, decide_eq_true_eq] at hc ⊢
  split <;> omega

theorem capitalOf_capitalOf (c : CodePoint) : capitalOf (capitalOf c) = capitalOf c := by
  refine toNat_injective ?_
  simp only [toNat_capitalOf]
  split_ifs <;> omega

theorem capitalOf_smallOf (c : CodePoint) : capitalOf (smallOf c) = capitalOf c := by
  refine toNat_injective ?_
  simp only [toNat_capitalOf, toNat_smallOf]
  split_ifs <;> omega

theorem smallOf_capitalOf (c : CodePoint) : smallOf (capitalOf c) = smallOf c := by
  refine toNat_injective ?_
  simp only [toNat_capitalOf, toNat_smallOf]
  split_ifs <;> omega

theorem capitalOf_cases (c : CodePoint) : capitalOf c = c ∨ isCapital (capitalOf c) = true := by
  by_cases h : isSmall c = true
  · refine .inr ?_
    simp only [isSmall, isCapital, toNat_capitalOf, Bool.and_eq_true, decide_eq_true_eq] at h ⊢
    rw [if_pos h]
    omega
  · exact .inl (if_neg h)

theorem smallOf_cases (c : CodePoint) : smallOf c = c ∨ isSmall (smallOf c) = true := by
  by_cases h : isCapital c = true
  · refine .inr ?_
    simp only [isSmall, isCapital, toNat_smallOf, Bool.and_eq_true, decide_eq_true_eq] at h ⊢
    rw [if_pos h]
    omega
  · exact .inl (if_neg h)

theorem isAscii_of_alnum (h : isAsciiAlnum c = true) : isAscii c = true := by
  simp only [isAsciiAlnum, isAsciiLetter, isCapital, isSmall, isAsciiDigit, Bool.or_eq_true, Bool.and_eq_true,
    decide_eq_true_eq] at h
  exact decide_eq_true (by omega)

theorem letter_forms (h : isAsciiLetter c = true) : isCapital (capitalOf c) = true ∧ isSmall (smallOf c) = true := by
  simp only [isAsciiLetter, isCapital, isSmall, toNat_capitalOf, toNat_smallOf, Bool.or_eq_true, Bool.and_eq_true,
    decide_eq_true_eq] at h ⊢
  split_ifs <;> omega

theorem digit_forms (h : isAsciiDigit c = true) : capitalOf c = c ∧ smallOf c = c := by
  simp only [isAsciiDigit, Bool.and_eq_true, decide_eq_true_eq] at h
  refine ⟨if_neg ?_, if_neg ?_⟩
  · simp only [isSmall, Bool.and_eq_true, decide_eq_true_eq]
    omega
  · simp only [isCapital, Bool.and_eq_true, decide_eq_true_eq]
    omega

theorem alnum_cases (h : isAsciiAlnum c = true) : isAsciiLetter c = true ∨ isAsciiDigit c = true :=
  Bool.or_eq_true _ _ |>.mp h

theorem alnum_forms (h : isAsciiAlnum c = true) :
    isAsciiAlnum (capitalOf c) = true ∧ isAsciiAlnum (smallOf c) = true := by
  obtain hc | hc := alnum_cases h
  · obtain ⟨hcapital, hsmall⟩ := letter_forms hc
    simp [isAsciiAlnum, isAsciiLetter, hcapital, hsmall]
  · obtain ⟨hcapital, hsmall⟩ := digit_forms hc
    rw [hcapital, hsmall]
    exact ⟨h, h⟩

theorem isBlank_of_alnum (h : isAsciiAlnum c = true) : isBlank c = false := by
  simp only [isAsciiAlnum, isAsciiLetter, isCapital, isSmall, isAsciiDigit, Bool.or_eq_true, Bool.and_eq_true,
    decide_eq_true_eq] at h
  simp only [isBlank, Bool.or_eq_false_iff, Bool.and_eq_false_iff, decide_eq_false_iff_not, beq_eq_false_iff_ne]
  omega

theorem isBlank_capitalOf (c : CodePoint) : isBlank (capitalOf c) = isBlank c := by
  by_cases h : isSmall c = true
  · have hc : isAsciiAlnum c = true := by simp [isAsciiAlnum, isAsciiLetter, h]
    rw [isBlank_of_alnum hc, isBlank_of_alnum (alnum_forms hc).1]
  · rw [capitalOf, if_neg h]

theorem find?_exceptions {exceptions : List (Nat × List Nat)} (h : ∀ e ∈ exceptions, 128 ≤ e.1)
    (hc : isAscii c = true) : exceptions.find? (·.1 == c.toNat) = none := by
  have hlt : c.toNat < 128 := of_decide_eq_true hc
  refine find?_eq_none.mpr fun e he heq => ?_
  have := h e he
  rw [eq_of_beq heq] at this
  omega

/-- A table whose second run lies beyond ASCII acts in ASCII by its first run alone. -/
theorem shift_ascii {lo hi : Nat} {delta : Int} {rest : List CaseRun} (hrest : ∀ run ∈ rest.head?, 128 ≤ run.1)
    {n : Nat} (hn : n < 128) :
    CaseTable.shift ((lo, hi, 1, delta) :: rest) n = if lo ≤ n ∧ n ≤ hi then (n + delta).toNat else n := by
  have hlater : CaseTable.shift rest n = n := by
    cases rest with
    | nil => rfl
    | cons run rest =>
      have hrun : n < run.1 := Nat.lt_of_lt_of_le hn (hrest run rfl)
      rw [CaseTable.shift, if_pos hrun]
  rw [CaseTable.shift, hlater, Nat.mod_one]
  by_cases hlo : n < lo
  · rw [if_pos hlo, if_neg (by omega)]
  · rw [if_neg hlo]
    refine if_congr ?_ rfl rfl
    simp only [beq_self_eq_true, Bool.and_true, decide_eq_true_eq]
    omega

theorem upperChar_ascii (hc : isAscii c = true) : upperChar c = [capitalOf c] := by
  have hshift : CaseTable.shift upperRuns c.toNat = if 97 ≤ c.toNat ∧ c.toNat ≤ 122 then (c.toNat + -32 : Int).toNat
      else c.toNat := shift_ascii (by decide) (of_decide_eq_true hc)
  rw [upperChar, CaseTable.map, find?_exceptions (by decide +kernel) hc]
  simp only [hshift, capitalOf, isSmall, Bool.and_eq_true, decide_eq_true_eq]
  split
  · have hnumber : (c.toNat + -32 : Int).toNat = c.toNat - 32 := by omega
    rw [hnumber]
  · rw [c.ofNat_toNat]

theorem lowerChar_ascii (hc : isAscii c = true) : lowerChar c = [smallOf c] := by
  have hshift : CaseTable.shift lowerRuns c.toNat = if 65 ≤ c.toNat ∧ c.toNat ≤ 90 then (c.toNat + 32 : Int).toNat
      else c.toNat := shift_ascii (by decide) (of_decide_eq_true hc)
  rw [lowerChar, CaseTable.map, find?_exceptions (by decide) hc]
  simp only [hshift, smallOf, isCapital, Bool.and_eq_true, decide_eq_true_eq]
  split
  · rfl
  · rw [c.ofNat_toNat]

theorem titleChar_ascii (hc : isAscii c = true) : titleChar c = [capitalOf c] := by
  rw [titleChar, find?_exceptions (by decide +kernel) hc]
  exact upperChar_ascii hc

/-! ## Plain characters -/

/-- Whether a capital has one small letter and one title letter, and is the capital of both. -/
def isPlainCapital (d : CodePoint) : Bool :=
  upperChar d == [d] && d.toNat != 0x3A3 && match lowerChar d, titleChar d with
    | [l], [t] => upperChar l == [d] && upperChar t == [d]
    | _, _ => false

/-- Whether case goes one to one at a character, as it does everywhere in ASCII. -/
def isPlain (c : CodePoint) : Bool :=
  match upperChar c with
  | [d] => isPlainCapital d && isBlank d == isBlank c
  | _ => false

theorem of_isPlainCapital {d : CodePoint} (h : isPlainCapital d = true) :
    upperChar d = [d] ∧ d.toNat ≠ 0x3A3 ∧ (∃ l, lowerChar d = [l] ∧ upperChar l = [d]) ∧
      ∃ t, titleChar d = [t] ∧ upperChar t = [d] := by
  rw [isPlainCapital, Bool.and_eq_true, Bool.and_eq_true] at h
  obtain ⟨⟨hself, hsigma⟩, hothers⟩ := h
  split at hothers
  · next l t hl ht =>
    rw [Bool.and_eq_true, beq_iff_eq, beq_iff_eq] at hothers
    exact ⟨eq_of_beq hself, by simpa using hsigma, ⟨l, hl, hothers.1⟩, t, ht, hothers.2⟩
  · cases hothers

theorem of_isPlain (h : isPlain c = true) :
    ∃ d, upperChar c = [d] ∧ isPlainCapital d = true ∧ isBlank d = isBlank c := by
  rw [isPlain] at h
  split at h
  · next d hd =>
    rw [Bool.and_eq_true, beq_iff_eq] at h
    exact ⟨d, hd, h⟩
  · cases h

theorem isPlain_ascii (hc : isAscii c = true) : isPlain c = true := by
  have hd := isAscii_capitalOf hc
  have hsigma : (capitalOf c).toNat ≠ 0x3A3 := by
    have : (capitalOf c).toNat < 128 := of_decide_eq_true hd
    omega
  simp [isPlain, isPlainCapital, upperChar_ascii hc, upperChar_ascii hd, lowerChar_ascii hd, titleChar_ascii hd,
    upperChar_ascii (isAscii_smallOf hd), capitalOf_smallOf, capitalOf_capitalOf, isBlank_capitalOf, hsigma]

/-! ## Texts -/

namespace Text

section Ascii

variable {s : Text} (h : ∀ c ∈ s, isAscii c = true)

include h

theorem upper_ascii : upper s = s.map capitalOf := by
  induction s with
  | nil => rfl
  | cons c s ih =>
    obtain ⟨hc, hs⟩ := forall_mem_cons.mp h
    rw [upper, flatMap_cons, upperChar_ascii hc, ← upper, ih hs]
    rfl

theorem lowerFrom_ascii (before : Text) : lowerFrom before s = s.map smallOf := by
  induction s generalizing before with
  | nil => rfl
  | cons c s ih =>
    obtain ⟨hc, hs⟩ := forall_mem_cons.mp h
    have hsigma : ¬ (c.toNat == 0x3A3) = true := by
      have : c.toNat < 128 := of_decide_eq_true hc
      simp only [beq_iff_eq]
      omega
    rw [lowerFrom, lowerAt, if_neg hsigma, lowerChar_ascii hc, ih hs]
    rfl

theorem capitalize_ascii {c : CodePoint} (hc : isAscii c = true) :
    capitalize (c :: s) = capitalOf c :: s.map smallOf := by
  rw [capitalize, titleChar_ascii hc, lowerFrom_ascii h]
  rfl

theorem upper_map {f : CodePoint → CodePoint} (hf : f = capitalOf ∨ f = smallOf) : upper (s.map f) = upper s := by
  have hascii : ∀ d ∈ s.map f, isAscii d = true := by
    intro d hd
    obtain ⟨c, hc, rfl⟩ := mem_map.mp hd
    obtain rfl | rfl := hf
    · exact isAscii_capitalOf (h c hc)
    · exact isAscii_smallOf (h c hc)
  rw [upper_ascii hascii, upper_ascii h, map_map]
  refine map_congr_left fun c hc => ?_
  obtain rfl | rfl := hf
  · exact capitalOf_capitalOf c
  · exact capitalOf_smallOf c

end Ascii

end Text

/-! ## Changes of case -/

namespace Text

/-- A text of ASCII with some of its letters written as a function has them. -/
def Recased (f : CodePoint → CodePoint) (s t : Text) : Prop :=
  List.Forall₂ (fun c d => isAscii c = true ∧ (d = c ∨ d = f c)) s t

/-- A function that chooses one of the two forms of every letter. -/
structure IsCase (f : CodePoint → CodePoint) : Prop where
  ascii : ∀ {c}, isAscii c = true → isAscii (f c) = true
  idem : ∀ c, f (f c) = f c

namespace Recased

variable {f : CodePoint → CodePoint} {s t u : Text}

theorem refl (h : ∀ c ∈ s, isAscii c = true) : Recased f s s := forall₂_same.mpr fun c hc => ⟨h c hc, .inl rfl⟩

theorem map (h : ∀ c ∈ s, isAscii c = true) : Recased f s (s.map f) :=
  forall₂_map_right_iff.mpr (forall₂_same.mpr fun c hc => ⟨h c hc, .inr rfl⟩)

theorem ascii (hf : IsCase f) (h : Recased f s t) : ∀ d ∈ t, isAscii d = true := by
  induction h with
  | nil => nofun
  | cons hc _ ih =>
    refine forall_mem_cons.mpr ⟨?_, ih⟩
    obtain ⟨hc, rfl | rfl⟩ := hc
    · exact hc
    · exact hf.ascii hc

theorem trans (hf : IsCase f) (h₁ : Recased f s t) (h₂ : Recased f t u) : Recased f s u := by
  induction h₁ generalizing u with
  | nil => exact h₂
  | cons hc _ ih =>
    cases h₂ with
    | cons hd h₂ =>
      refine .cons ⟨hc.1, ?_⟩ (ih h₂)
      obtain ⟨-, rfl | rfl⟩ := hc <;> obtain ⟨-, rfl | rfl⟩ := hd
      · exact .inl rfl
      · exact .inr rfl
      · exact .inr rfl
      · exact .inr (hf.idem _)

/-- Writing every occurrence of a word in the case changes the case of letters. -/
theorem replace {old : Text} (h : ∀ c ∈ s, isAscii c = true) : Recased f s (replace old (old.map f) s) := by
  by_cases hne : old = []
  · subst hne
    have hid : Text.replace [] ([].map f) s = s := by simp [Text.replace]
    rw [hid]
    exact refl h
  induction s using occurrence_induction hne with
  | nil =>
    rw [replace_nil hne]
    exact .nil
  | found s hp ih =>
    obtain ⟨r, rfl⟩ := hp
    obtain ⟨hold, hr⟩ := forall_mem_append.mp h
    rw [replace_of_start hne (prefix_append old r)]
    rw [drop_left] at ih ⊢
    exact rel_append (map hold) (ih hr)
  | other c r hp ih =>
    rw [replace_cons hne hp]
    obtain ⟨hc, hr⟩ := forall_mem_cons.mp h
    exact .cons ⟨hc, .inl rfl⟩ (ih hr)

end Recased

theorem isCase_capitalOf : IsCase capitalOf := ⟨isAscii_capitalOf, capitalOf_capitalOf⟩

theorem isCase_smallOf : IsCase smallOf where
  ascii := isAscii_smallOf
  idem c := by rw [← smallOf_capitalOf (smallOf c), capitalOf_smallOf, smallOf_capitalOf]

end Text

end ViewLint
