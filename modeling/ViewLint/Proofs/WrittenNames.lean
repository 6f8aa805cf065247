import ViewLint.Proofs.AbbreviationOrder
import ViewLint.Proofs.ConventionForms

/-!
# Names that a convention writes

A name of letters and digits of ASCII between delimiters is cut into words of letters and digits, and what a
convention makes of the words has its form, with a few exceptions. Abbreviations then change only the case of
letters.

* **`Naming.words_plain`**: the words of such a name.
* **`Convention.recased_adjust`**: abbreviations change only the case of letters.
* **`Convention.isForm_convert`**, **`Convention.isForm_adjust`**: the names that have the form of the convention
  that wrote them, before and after abbreviations are looked for.
-/

namespace ViewLint

open List

variable {ws order : List Text} {c y : CodePoint}

namespace Naming

open Text

/-! ## Words -/

/-- Whether a name consists of letters and digits of ASCII and of delimiters, and the first of the letters and
digits is a letter. -/
def isPlainName (s : Text) : Bool :=
  s.all (fun c => isAsciiAlnum c || isDelimiter c) && (s.find? isAsciiAlnum).any isAsciiLetter

theorem isDelimiter_of_alnum (h : isAsciiAlnum c = true) : isDelimiter c = false := by
  simp only [isDelimiter, isBlank_of_alnum h, Bool.or_false, Bool.or_eq_false_iff, beq_eq_false_iff_ne]
  constructor <;> rintro rfl <;> exact absurd h (by decide)

theorem flatten_splitWhere (p : CodePoint → Bool) (s : Text) : (splitWhere p s).flatten = s.filter fun c => !p c := by
  induction s with
  | nil => rfl
  | cons c s ih =>
    rw [splitWhere, filter_cons, ← ih]
    cases hc : p c with
    | true => rfl
    | false =>
      obtain ⟨first, rest, hsplit⟩ := exists_cons_of_ne_nil (splitWhere_ne_nil p s)
      rw [hsplit]
      rfl

/-- Blanks at the ends do not matter for other characters. -/
theorem filter_strip {p : CodePoint → Bool} (hp : ∀ c, isBlank c = true → p c = false) (s : Text) :
    (strip s).filter p = s.filter p := by
  have hdrop (s : Text) : (s.dropWhile isBlank).filter p = s.filter p := by
    induction s with
    | nil => rfl
    | cons c s ih =>
      rw [dropWhile_cons]
      split
      · next hc => rw [ih, filter_cons, hp c hc, if_neg Bool.false_ne_true]
      · rfl
  rw [strip, stripEnd, stripStart, filter_reverse, hdrop, filter_reverse, reverse_reverse, hdrop]

theorem mem_of_mem_strip {s : Text} (h : c ∈ strip s) : c ∈ s := by
  have hend : c ∈ (stripStart s).reverse := (dropWhile_sublist isBlank).subset (mem_reverse.mp h)
  exact (dropWhile_sublist isBlank).subset (mem_reverse.mp hend)

theorem humps_cons_other (hc : isAsciiLetter c = false) (s : Text) : humps (c :: s) = humps s := by
  rw [isAsciiLetter] at hc
  simp [humps, hc]

/-- A letter belongs to the hump of a small letter after it, and ends a hump otherwise. -/
theorem humps_cons_letter (hc : isAsciiLetter c = true) (s : Text) :
    s.head?.any isSmall = true ∧ (∃ word more, humps s = word :: more ∧ humps (c :: s) = (c :: word) :: more) ∨
      s.head?.any isSmall = false ∧ humps (c :: s) = [c] :: humps s := by
  have hnonempty {d : CodePoint} (hd : isSmall d = true) (r : Text) : humps (d :: r) ≠ [] := by
    simp only [humps, hd, Bool.or_true, if_true]
    split
    · split <;> exact cons_ne_nil _ _
    · exact cons_ne_nil _ _
  rw [isAsciiLetter] at hc
  cases s with
  | nil => exact .inr ⟨rfl, by simp [humps, hc]⟩
  | cons d r =>
    cases hd : isSmall d with
    | true =>
      obtain ⟨word, more, hrest⟩ := exists_cons_of_ne_nil (hnonempty hd r)
      refine .inl ⟨hd, word, more, hrest, ?_⟩
      rw [humps.eq_def]
      simp only [hc, hrest, hd, if_true]
    | false =>
      refine .inr ⟨hd, ?_⟩
      rw [humps.eq_def]
      simp only [hc, if_true]
      split
      · split
        · simp_all
        · rfl
      · rfl

theorem humps_letters (s : Text) : ∀ w ∈ humps s, w ≠ [] ∧ ∀ c ∈ w, isAsciiLetter c = true := by
  induction s with
  | nil => nofun
  | cons c s ih =>
    cases hc : isAsciiLetter c with
    | false => rwa [humps_cons_other hc]
    | true =>
      obtain ⟨-, word, more, hrest, hcut⟩ | ⟨-, hcut⟩ := humps_cons_letter hc s
      · rw [hrest] at ih
        obtain ⟨hword, hmore⟩ := forall_mem_cons.mp ih
        rw [hcut]
        exact forall_mem_cons.mpr ⟨⟨cons_ne_nil _ _, forall_mem_cons.mpr ⟨hc, hword.2⟩⟩, hmore⟩
      · rw [hcut]
        exact forall_mem_cons.mpr ⟨⟨cons_ne_nil _ _, forall_mem_singleton.mpr hc⟩, ih⟩

section Plain

variable {s : Text} (h : ∀ x ∈ s, isAsciiAlnum x = true ∨ isDelimiter x = true)

include h

/-- Between the blanks at its ends, what is no delimiter is a letter or a digit. -/
theorem filter_core : (strip s).filter (fun x => !isDelimiter x) = s.filter isAsciiAlnum := by
  have hblank (x : CodePoint) (hx : isBlank x = true) : isAsciiAlnum x = false := by
    by_contra halnum
    rw [isBlank_of_alnum (eq_true_of_ne_false halnum)] at hx
    cases hx
  rw [← filter_strip hblank s]
  refine filter_congr fun x hx => ?_
  cases halnum : isAsciiAlnum x with
  | true => simp [isDelimiter_of_alnum halnum]
  | false => simpa [halnum] using h x (mem_of_mem_strip hx)

theorem alnum_of_mem_core {x : CodePoint} (hx : x ∈ strip s) (hdelimiter : isDelimiter x = false) :
    isAsciiAlnum x = true :=
  (h x (mem_of_mem_strip hx)).resolve_right (by simp [hdelimiter])

end Plain

/-- Words that are not empty start with the first character of them all. -/
theorem exists_first (hws : ∀ w ∈ ws, w ≠ []) (hflat : ws.flatten.head? = some c) :
    ∃ r rest, ws = (c :: r) :: rest := by
  cases ws with
  | nil => cases hflat
  | cons w rest =>
    obtain ⟨d, r, rfl⟩ := exists_cons_of_ne_nil (hws w mem_cons_self)
    obtain rfl : d = c := by simpa using hflat
    exact ⟨r, rest, rfl⟩

/-- **The words of a plain name** consist of letters and digits, and the first one starts with a letter. -/
theorem words_plain {s : Text} (h : isPlainName s = true) :
    (∃ c r ws, words s = (c :: r) :: ws ∧ isAsciiLetter c = true) ∧
      ∀ w ∈ words s, w ≠ [] ∧ ∀ c ∈ w, isAsciiAlnum c = true := by
  obtain ⟨hall, hfirst⟩ := Bool.and_eq_true _ _ |>.mp h
  have hchars : ∀ x ∈ s, isAsciiAlnum x = true ∨ isDelimiter x = true := by simpa using hall
  have hcore := filter_core hchars
  obtain ⟨c, hc, hletter⟩ : ∃ c, (s.filter isAsciiAlnum).head? = some c ∧ isAsciiLetter c = true := by
    rw [head?_filter]
    simpa [Option.any_eq_true] using hfirst
  simp only [words]
  split
  · have hwords : ∀ w ∈ (splitWhere isDelimiter (strip s)).filter (!·.isEmpty),
        w ≠ [] ∧ ∀ c ∈ w, isAsciiAlnum c = true := by
      intro w hw
      obtain ⟨hpiece, hne⟩ := mem_filter.mp hw
      refine ⟨by simpa using hne, fun x hx => ?_⟩
      obtain ⟨hmem, hdelimiter⟩ := mem_of_mem_splitWhere hpiece hx
      exact alnum_of_mem_core hchars hmem hdelimiter
    refine ⟨?_, hwords⟩
    obtain ⟨r, rest, heq⟩ := exists_first (c := c) (fun w hw => (hwords w hw).1) (by
      rw [flatten_filter_not_isEmpty, flatten_splitWhere, hcore, hc])
    exact ⟨c, r, rest, heq, hletter⟩
  · next hnone =>
    have hfree : ∀ x ∈ strip s, isDelimiter x = false := by simpa using hnone
    have hall : strip s = s.filter isAsciiAlnum := by
      rw [← hcore, filter_eq_self.mpr]
      simpa using hfree
    have hne : strip s ≠ [] := fun hnil => by
      rw [← hall, hnil] at hc
      cases hc
    rw [if_neg (by simpa using hne)]
    split
    · next hmany =>
      have hletters := humps_letters s
      refine ⟨?_, fun w hw => ⟨(hletters w hw).1, fun x hx => by simp [isAsciiAlnum, (hletters w hw).2 x hx]⟩⟩
      obtain ⟨w, rest, hcut⟩ := exists_cons_of_ne_nil (length_pos_iff.mp (Nat.zero_lt_of_lt hmany))
      obtain ⟨hw, hword⟩ := hletters w (hcut ▸ mem_cons_self)
      obtain ⟨d, r, rfl⟩ := exists_cons_of_ne_nil hw
      exact ⟨d, r, rest, hcut, hword d mem_cons_self⟩
    · have halnum := fun x hx => alnum_of_mem_core hchars hx (hfree x hx)
      refine ⟨?_, forall_mem_singleton.mpr ⟨hne, halnum⟩⟩
      obtain ⟨r, rest, heq⟩ := exists_first (c := c) (forall_mem_singleton.mpr hne) (by
        rw [flatten_singleton, hall, hc])
      exact ⟨c, r, rest, heq, hletter⟩

end Naming

/-! ## Abbreviations -/

namespace Convention

open Naming Text

variable {x : CodePoint} {a t r : Text} {k : Convention} {numbers : Bool}

def casing : Convention → CodePoint → CodePoint
  | pascal | camel | screaming | title => capitalOf
  | snake | kebab | lower => smallOf

theorem isCase_casing (k : Convention) : IsCase k.casing := by
  cases k with
  | pascal | camel | screaming | title => exact isCase_capitalOf
  | snake | kebab | lower => exact isCase_smallOf

/-- The spellings of an abbreviation that are looked for differ from its capitals in case alone. -/
theorem upper_eq_map_variant (ha : ∀ c ∈ a, isAscii c = true) :
    ∀ v ∈ [upper a, Text.lower a, capitalize a], upper a = v.map capitalOf := by
  have hsmall (r : Text) : r.map capitalOf = (r.map smallOf).map capitalOf := by
    rw [map_map]
    exact map_congr_left fun c _ => (capitalOf_smallOf c).symm
  refine forall_mem_cons.mpr ⟨?_, forall_mem_cons.mpr ⟨?_, forall_mem_singleton.mpr ?_⟩⟩
  · rw [upper_ascii ha, map_map]
    exact map_congr_left fun c _ => (capitalOf_capitalOf c).symm
  · rw [upper_ascii ha, Text.lower, lowerFrom_ascii ha, ← hsmall]
  · cases a with
    | nil => rfl
    | cons c r =>
      obtain ⟨hc, hr⟩ := forall_mem_cons.mp ha
      rw [capitalize_ascii hr hc, upper_ascii ha, map_cons, map_cons, capitalOf_capitalOf, ← hsmall]

theorem recased_adjustOne (hk : k ≠ title) {s : Text} (hs : ∀ c ∈ s, isAscii c = true)
    (ha : ∀ c ∈ a, isAscii c = true) : Recased k.casing s (k.adjustOne s a) := by
  have hcapitals : Recased capitalOf s (capitalizeAbbreviation s a) := by
    refine foldlRecOn _ _ (Recased.refl hs) fun t ht v hv => ?_
    rw [upper_eq_map_variant ha v hv]
    exact ht.trans isCase_capitalOf (Recased.replace (ht.ascii isCase_capitalOf))
  have hsmalls : Recased smallOf s (Text.replace (upper a) (Text.lower a) s) := by
    have hnew : Text.lower a = (upper a).map smallOf := by
      rw [upper_ascii ha, Text.lower, lowerFrom_ascii ha, map_map]
      exact map_congr_left fun c _ => (smallOf_capitalOf c).symm
    rw [hnew]
    exact Recased.replace hs
  cases k with
  | pascal | camel => exact hcapitals
  | snake | kebab => exact hsmalls
  | screaming =>
    rw [adjustOne, upper_ascii hs]
    exact Recased.map hs
  | title => exact absurd rfl hk
  | lower =>
    rw [adjustOne, Text.lower, lowerFrom_ascii hs]
    exact Recased.map hs

theorem exists_of_mem_found (ht : ∀ c ∈ t, isAscii c = true) (h : holds (upper t) a = true) :
    ∀ x ∈ a, ∃ c ∈ t, capitalOf c = x := by
  intro x hx
  have hoccurs : a <:+: upper t := holds_iff_isInfix.mp h
  have hmem : x ∈ upper t := hoccurs.subset hx
  rw [upper_ascii ht] at hmem
  exact mem_map.mp hmem

theorem isAscii_of_found (ht : ∀ c ∈ t, isAscii c = true) (h : holds (upper t) a = true) :
    ∀ x ∈ a, isAscii x = true := by
  intro x hx
  obtain ⟨c, hc, rfl⟩ := exists_of_mem_found ht h x hx
  exact isAscii_capitalOf (ht c hc)

theorem recased_adjust (hk : k ≠ title) (ht : ∀ c ∈ t, isAscii c = true)
    (order : List Text) : Recased k.casing t (k.adjust order t) := by
  rw [adjust_eq]
  refine foldlRecOn order (k.adjustStep t) (Recased.refl ht) fun s hs a _ => ?_
  rw [adjustStep]
  split
  · next hfound =>
    have hstep := recased_adjustOne hk (hs.ascii (isCase_casing k)) (isAscii_of_found ht hfound)
    exact hs.trans (isCase_casing k) hstep
  · exact hs

/-! ## Forms -/

theorem inner_casing (hk : k ≠ title) (h : k.inner numbers c = true) : k.inner numbers (k.casing c) = true := by
  cases k with
  | pascal | camel | screaming =>
    obtain heq | hcapital := capitalOf_cases c
    · rwa [casing, heq]
    · simp [casing, inner, hcapital]
  | snake | kebab | lower =>
    obtain heq | hsmall := smallOf_cases c
    · rwa [casing, heq]
    · simp [casing, inner, hsmall]
  | title => exact absurd rfl hk

theorem initial_casing (hk : k ≠ camel) (h : k.initial c = true) : k.initial (k.casing c) = true := by
  cases k with
  | pascal | screaming | title =>
    obtain heq | hcapital := capitalOf_cases c
    · rwa [casing, heq]
    · exact hcapital
  | snake | kebab | lower =>
    obtain heq | hsmall := smallOf_cases c
    · rwa [casing, heq]
    · exact hsmall
  | camel => exact absurd rfl hk

/-- Titles apart, a form is a first character and the others. -/
theorem isForm_iff (hk : k ≠ title) {s : Text} :
    k.isForm numbers s = true ↔ ∃ c r, s = c :: r ∧ k.initial c = true ∧ ∀ d ∈ r, k.inner numbers d = true := by
  rw [← opens_iff]
  cases k with
  | title => exact absurd rfl hk
  | pascal | camel | snake | kebab | screaming | lower => exact Iff.rfl

/-- A name of a form keeps it when letters are written in the case of the convention, if the first letter of a
camel-case name is left as it is. -/
theorem isForm_of_recased (hk : k ≠ title) {s : Text} (h : Recased k.casing s t)
    (hhead : k = camel → t.head? = s.head?) (hform : k.isForm numbers s = true) : k.isForm numbers t = true := by
  obtain ⟨c, r, rfl, hc, hr⟩ := (isForm_iff hk).mp hform
  cases h with
  | @cons _ d _ u hd hu =>
    refine (isForm_iff hk).mpr ⟨d, u, rfl, ?_, ?_⟩
    · obtain ⟨-, rfl | rfl⟩ := hd
      · exact hc
      · by_cases hcamel : k = camel
        · have hsame := Option.some.inj (hhead hcamel)
          rwa [hsame]
        · exact initial_casing hcamel hc
    · clear hhead hform hd
      induction hu with
      | nil => nofun
      | cons hx _ ih =>
        obtain ⟨hfirst, hlater⟩ := forall_mem_cons.mp hr
        refine forall_mem_cons.mpr ⟨?_, ih hlater⟩
        obtain ⟨-, rfl | rfl⟩ := hx
        · exact hfirst
        · exact inner_casing hk hfirst

/-- Abbreviations that do not stand at the start of a name leave its first character alone. -/
theorem head?_adjust (hk : k = pascal ∨ k = camel ∨ k = snake ∨ k = kebab)
    (ht : ∀ c ∈ t, isAscii c = true) (h : ∀ a ∈ order, a ≠ [] → ¬ a <+: upper t) :
    (k.adjust order t).head? = t.head? := by
  have hplain : ∀ c ∈ t, isPlain c = true := fun c hc => isPlain_ascii (ht c hc)
  have hinvariant : Spells (k.adjust order t) (upper t) ∧ (k.adjust order t)[0]? = t[0]? := by
    rw [adjust_eq]
    refine foldlRecOn order (k.adjustStep t) (motive := fun s => Spells s (upper t) ∧ s[0]? = t[0]?)
      ⟨(spells_upper hplain).1, rfl⟩ fun s hs a ha => ?_
    have hlocal := local_adjustStep hk hplain a
    refine ⟨hlocal.keeps s hs.1, (hlocal.frame s hs.1 0 ?_).trans hs.2⟩
    rintro ⟨i, hprefix, hle, hlt⟩
    obtain rfl : i = 0 := by omega
    exact h a ha (length_pos_iff.mp (by omega)) (by simpa using hprefix)
  rw [head?_eq_getElem?, head?_eq_getElem?, hinvariant.2]

/-! ## Written names -/

def hasDigits : Convention → Bool → Bool
  | title, _ | lower, _ => false
  | _, numbers => numbers

/-- What a convention puts between words. -/
def separator : Convention → Text
  | pascal | camel => ""
  | snake | screaming => "_"
  | kebab => "-"
  | title | lower => " "

def hasCapitals : Convention → Bool
  | pascal | camel | screaming | title => true
  | snake | kebab | lower => false

def hasSmalls : Convention → Bool
  | screaming => false
  | pascal | camel | snake | kebab | title | lower => true

theorem inner_separator (hk : k ≠ title) (numbers : Bool) : ∀ y ∈ k.separator, k.inner numbers y = true := by
  cases k <;> cases numbers <;> first | exact absurd rfl hk | decide

section Words

variable {k : Convention} {abbreviations : List Text}

theorem capitalWord_cons (h : ∀ x ∈ c :: r, isAscii x = true) : capitalWord abbreviations (c :: r) =
      capitalOf c :: r.map (if abbreviations.contains (upper (c :: r)) then capitalOf else smallOf) := by
  obtain ⟨hc, hr⟩ := forall_mem_cons.mp h
  rw [capitalWord, capitalize_ascii hr hc, upper_ascii h]
  split <;> rfl

theorem mem_capitalWord {w : Text} (h : ∀ x ∈ w, isAscii x = true)
    (hy : y ∈ capitalWord abbreviations w) : ∃ x ∈ w, y = capitalOf x ∨ y = smallOf x := by
  cases w with
  | nil => simp [capitalWord, capitalize, upper] at hy
  | cons c r =>
    rw [capitalWord_cons h] at hy
    obtain rfl | hy := mem_cons.mp hy
    · exact ⟨c, mem_cons_self, .inl rfl⟩
    · obtain ⟨x, hx, rfl⟩ := mem_map.mp hy
      refine ⟨x, mem_cons_of_mem c hx, ?_⟩
      split
      · exact .inl rfl
      · exact .inr rfl

/-- The characters that words are put together to: their letters and digits, in a case that the convention has,
and what the convention puts between words. -/
theorem mem_assemble (hws : ∀ w ∈ ws, ∀ x ∈ w, isAscii x = true)
    (hy : y ∈ k.assemble abbreviations ws) : y ∈ k.separator ∨ ∃ w ∈ ws, ∃ x ∈ w,
      y = capitalOf x ∧ k.hasCapitals = true ∨ y = smallOf x ∧ k.hasSmalls = true := by
  have hmixed (hcapitals : k.hasCapitals = true) (hsmalls : k.hasSmalls = true) {v : Text}
      (hv : v ∈ ws.map (capitalWord abbreviations)) (hy : y ∈ v) : ∃ w ∈ ws, ∃ x ∈ w,
        y = capitalOf x ∧ k.hasCapitals = true ∨ y = smallOf x ∧ k.hasSmalls = true := by
    obtain ⟨w, hw, rfl⟩ := mem_map.mp hv
    obtain ⟨x, hx, hy⟩ := mem_capitalWord (hws w hw) hy
    exact ⟨w, hw, x, hx, hy.imp (⟨·, hcapitals⟩) (⟨·, hsmalls⟩)⟩
  have hlower {z : CodePoint} {sep : Text} (hz : z ∈ join sep (ws.map Text.lower)) :
      z ∈ sep ∨ ∃ w ∈ ws, ∃ x ∈ w, z = smallOf x := by
    obtain hz | ⟨v, hv, hz⟩ := mem_join hz
    · exact .inl hz
    · obtain ⟨w, hw, rfl⟩ := mem_map.mp hv
      rw [Text.lower, lowerFrom_ascii (hws w hw)] at hz
      obtain ⟨x, hx, rfl⟩ := mem_map.mp hz
      exact .inr ⟨w, hw, x, hx, rfl⟩
  cases k with
  | pascal =>
    obtain ⟨v, hv, hy⟩ := mem_flatten.mp hy
    exact .inr (hmixed rfl rfl hv hy)
  | camel =>
    cases ws with
    | nil => cases hy
    | cons w rest =>
      obtain hy | hy := mem_append.mp hy
      · have hw := hws w mem_cons_self
        rw [firstCamelWord, upper_ascii hw, Text.lower, lowerFrom_ascii hw] at hy
        refine .inr ⟨w, mem_cons_self, ?_⟩
        split at hy <;> obtain ⟨x, hx, rfl⟩ := mem_map.mp hy
        · exact ⟨x, hx, .inl ⟨rfl, rfl⟩⟩
        · exact ⟨x, hx, .inr ⟨rfl, rfl⟩⟩
      · obtain ⟨v, hv, hy⟩ := mem_flatten.mp hy
        exact .inr (hmixed rfl rfl (mem_cons_of_mem _ hv) hy)
  | title =>
    obtain hy | ⟨v, hv, hy⟩ := mem_join hy
    · exact .inl hy
    · exact .inr (hmixed rfl rfl hv hy)
  | snake | kebab | lower => exact (hlower hy).imp_right fun ⟨w, hw, x, hx, h⟩ => ⟨w, hw, x, hx, .inr ⟨h, rfl⟩⟩
  | screaming =>
    have hascii : ∀ z ∈ join "_" (ws.map Text.lower), isAscii z = true := by
      intro z hz
      obtain hz | ⟨w, hw, x, hx, rfl⟩ := hlower hz
      · exact (by decide : ∀ z ∈ ofString "_", isAscii z = true) z hz
      · exact isAscii_smallOf (hws w hw x hx)
    rw [assemble, upper_ascii hascii] at hy
    obtain ⟨z, hz, rfl⟩ := mem_map.mp hy
    obtain hz | ⟨w, hw, x, hx, rfl⟩ := hlower hz
    · exact .inl ((by decide : ∀ z ∈ ofString "_", capitalOf z ∈ screaming.separator) z hz)
    · exact .inr ⟨w, hw, x, hx, .inl ⟨capitalOf_smallOf x, rfl⟩⟩

theorem isAscii_of_mem_assemble (hws : ∀ w ∈ ws, ∀ x ∈ w, isAscii x = true) :
    ∀ y ∈ k.assemble abbreviations ws, isAscii y = true := by
  intro y hy
  obtain hy | ⟨w, hw, x, hx, ⟨rfl, -⟩ | ⟨rfl, -⟩⟩ := mem_assemble hws hy
  · exact (by cases k <;> decide : ∀ y ∈ k.separator, isAscii y = true) y hy
  · exact isAscii_capitalOf (hws w hw x hx)
  · exact isAscii_smallOf (hws w hw x hx)

theorem inner_of_mem_assemble (hk : k ≠ title) {numbers : Bool}
    (hws : ∀ w ∈ ws, ∀ x ∈ w, isAsciiAlnum x = true) (hy : y ∈ k.assemble abbreviations ws)
    (hdigit : isAsciiDigit y = true → k.hasDigits numbers = true) : k.inner numbers y = true := by
  obtain hy | ⟨w, hw, x, hx, ⟨rfl, hcapitals⟩ | ⟨rfl, hsmalls⟩⟩ :=
    mem_assemble (fun w hw x hx => isAscii_of_alnum (hws w hw x hx)) hy
  · exact inner_separator hk numbers y hy
  all_goals
    obtain hx | hx := alnum_cases (hws w hw x hx)
    · have hletter := letter_forms hx
      cases k <;> simp_all [inner, hasCapitals, hasSmalls]
    · have hforms := digit_forms hx
      cases k <;> simp_all [inner, hasDigits]

theorem exists_join_cons (sep : Text) (d : CodePoint) (u : Text) (ws : List Text) :
    ∃ v, join sep ((d :: u) :: ws) = d :: v := by
  cases ws with
  | nil => exact ⟨u, rfl⟩
  | cons w ws => exact ⟨u ++ sep ++ join sep (w :: ws), rfl⟩

/-- The first character of words that are put together. -/
theorem initial_assemble (hk : k ≠ title) (ws : List Text)
    (hword : ∀ x ∈ c :: r, isAscii x = true) (hc : isAsciiLetter c = true)
    (hcamel : k = camel → upper (c :: r) ∉ abbreviations) :
    ∃ d u, k.assemble abbreviations ((c :: r) :: ws) = d :: u ∧ k.initial d = true := by
  obtain ⟨hcapital, hsmall⟩ := letter_forms hc
  have hlower : Text.lower (c :: r) = smallOf c :: r.map smallOf := lowerFrom_ascii hword []
  obtain ⟨v, hv⟩ : ∃ v, join k.separator (((c :: r) :: ws).map Text.lower) = smallOf c :: v := by
    rw [map_cons, hlower]
    exact exists_join_cons _ _ _ _
  cases k with
  | pascal =>
    rw [assemble, map_cons, flatten_cons, capitalWord_cons hword, cons_append]
    exact ⟨capitalOf c, _, rfl, hcapital⟩
  | camel =>
    rw [assemble, firstCamelWord, if_neg (by simpa using hcamel rfl), hlower, cons_append]
    exact ⟨smallOf c, _, rfl, hsmall⟩
  | snake | kebab | lower => exact ⟨smallOf c, v, hv, hsmall⟩
  | screaming =>
    refine ⟨capitalOf c, upper v, ?_, hcapital⟩
    have hascii : isAscii c = true := hword c mem_cons_self
    have hjoin : join "_" (((c :: r) :: ws).map Text.lower) = smallOf c :: v := hv
    rw [assemble, hjoin, upper, flatMap_cons, upperChar_ascii (isAscii_smallOf hascii), capitalOf_smallOf]
    rfl
  | title => exact absurd rfl hk

end Words

/-- A name that a convention has written suits it: it holds digits only if it may, no abbreviation stands at the
start of a camel-case name, and the abbreviations among the words of a title are single letters. -/
structure Suits (k : Convention) (numbers : Bool) (abbreviations : List Text) (t : Text) : Prop where
  digits : ∀ x ∈ t, isAsciiDigit x = true → k.hasDigits numbers = true
  start : k = camel → ∀ a ∈ abbreviations, a ≠ [] → ¬ a <+: upper t
  words : k = title → ∀ w ∈ splitWhere isBlank t, upper w ∈ abbreviations → w.length = 1

/-- An abbreviation that is found in a text has no small letters. -/
theorem upper_of_holds (ht : ∀ c ∈ t, isAscii c = true) (h : holds (upper t) a = true) : upper a = a := by
  rw [upper_ascii (isAscii_of_found ht h)]
  refine (map_congr_left fun x hx => ?_).trans (map_id a)
  obtain ⟨c, hc, rfl⟩ := exists_of_mem_found ht h x hx
  exact capitalOf_capitalOf c

section Plain

variable {k : Convention} {numbers : Bool} {abbreviations : List Text} {s : Text} (hs : isPlainName s = true)

include hs

theorem isAscii_convert : ∀ y ∈ k.convert abbreviations s, isAscii y = true :=
  isAscii_of_mem_assemble fun w hw x hx => isAscii_of_alnum (((words_plain hs).2 w hw).2 x hx)

theorem exists_of_mem_title {v : Text} (hv : v ∈ (words s).map (capitalWord abbreviations)) :
    ∃ c r, (∀ x ∈ c :: r, isAsciiAlnum x = true) ∧ upper v = upper (c :: r) ∧
      v = capitalOf c :: r.map (if abbreviations.contains (upper (c :: r)) then capitalOf else smallOf) := by
  obtain ⟨w, hw, rfl⟩ := mem_map.mp hv
  obtain ⟨hne, halnum⟩ := (words_plain hs).2 w hw
  obtain ⟨c, r, rfl⟩ := exists_cons_of_ne_nil hne
  have hascii : ∀ x ∈ c :: r, isAscii x = true := fun x hx => isAscii_of_alnum (halnum x hx)
  obtain ⟨hc, hr⟩ := forall_mem_cons.mp hascii
  refine ⟨c, r, halnum, ?_, capitalWord_cons hascii⟩
  have hcons (d : CodePoint) (t : Text) : upper (d :: t) = upperChar d ++ upper t := rfl
  rw [capitalWord_cons hascii, hcons, hcons, upperChar_ascii (isAscii_capitalOf hc), upperChar_ascii hc,
    capitalOf_capitalOf, upper_map hr (by split <;> simp)]

theorem splitWhere_convert_title :
    splitWhere isBlank (title.convert abbreviations s) = (words s).map (capitalWord abbreviations) := by
  obtain ⟨⟨c, r, ws, hwords, -⟩, halnum⟩ := words_plain hs
  refine splitWhere_join (by simp [hwords]) fun v hv y hy => ?_
  obtain ⟨w, hw, rfl⟩ := mem_map.mp hv
  have hword := (halnum w hw).2
  obtain ⟨x, hx, rfl | rfl⟩ := mem_capitalWord (fun x hx => isAscii_of_alnum (hword x hx)) hy
  · exact isBlank_of_alnum (alnum_forms (hword x hx)).1
  · exact isBlank_of_alnum (alnum_forms (hword x hx)).2

theorem isForm_convert_title (h : title.Suits numbers abbreviations (title.convert abbreviations s)) :
    title.isForm numbers (title.convert abbreviations s) = true := by
  refine all_eq_true.mpr fun v hv => ?_
  have hletter {x y : CodePoint} (hx : isAsciiAlnum x = true) (hmem : y ∈ v) (hy : isAsciiDigit x = true → y = x) :
      isAsciiLetter x = true := by
    refine (alnum_cases hx).resolve_right fun hdigit => ?_
    cases h.digits x (mem_of_mem_splitWhere hv (hy hdigit ▸ hmem)).1 hdigit
  have hsingle := h.words rfl v hv
  rw [splitWhere_convert_title hs] at hv
  obtain ⟨c, r, halnum, hupper, heq⟩ := exists_of_mem_title hs hv
  obtain ⟨hc, hr⟩ := forall_mem_cons.mp halnum
  refine opens_iff.mpr ⟨_, _, heq, ?_, fun y hy => ?_⟩
  · exact (letter_forms (hletter hc (heq ▸ mem_cons_self) fun hdigit => (digit_forms hdigit).1)).1
  · have hmem : y ∈ v := heq ▸ mem_cons_of_mem _ hy
    obtain ⟨x, hx, rfl⟩ := mem_map.mp hy
    split at hmem
    · next hfound =>
      have hlength := hsingle (by simpa [hupper] using hfound)
      rw [heq, length_cons, length_map] at hlength
      obtain rfl : r = [] := eq_nil_of_length_eq_zero (by omega)
      cases hx
    · next hfound =>
      rw [if_neg hfound]
      exact (letter_forms (hletter (hr x hx) hmem fun hdigit => (digit_forms hdigit).2)).2

/-- Abbreviations leave a title as it is, if those among its words are single letters. -/
theorem adjust_title (h : title.Suits numbers abbreviations (title.convert abbreviations s))
    (horder : ∀ a ∈ order, a ∈ abbreviations) :
    title.adjust order (title.convert abbreviations s) = title.convert abbreviations s := by
  have hpieces : splitWhere isBlank (title.convert abbreviations s) = _ := splitWhere_convert_title hs
  have hsplit : blankSplit (title.convert abbreviations s) = (words s).map (capitalWord abbreviations) := by
    rw [blankSplit, hpieces, filter_eq_self]
    intro v hv
    obtain ⟨c, r, -, -, rfl⟩ := exists_of_mem_title hs hv
    rfl
  rw [adjust_eq]
  refine foldlRecOn order _ (motive := (· = title.convert abbreviations s)) rfl fun t ht a ha => ?_
  subst ht
  rw [adjustStep]
  split
  · next hfound =>
    have hword : ∀ v ∈ (words s).map (capitalWord abbreviations), capitalizeWord a v = v := by
      intro v hv
      obtain ⟨hsame, hcapital⟩ | ⟨-, hkept⟩ := capitalizeWord_cases a v
      · rw [upper_of_holds (isAscii_convert hs) hfound] at hsame
        have hlength := h.words rfl v (hpieces ▸ hv) (hsame ▸ horder a ha)
        obtain ⟨c, r, halnum, -, rfl⟩ := exists_of_mem_title hs hv
        rw [length_cons, length_map] at hlength
        obtain rfl : r = [] := eq_nil_of_length_eq_zero (by omega)
        have hc := isAscii_of_alnum (halnum c mem_cons_self)
        rw [hcapital]
        exact (upper_ascii (forall_mem_singleton.mpr (isAscii_capitalOf hc))).trans
          (congrArg ([·]) (capitalOf_capitalOf _))
      · exact hkept
    rw [adjustOne, capitalizeWords_eq, hsplit, (map_congr_left hword).trans (map_id _)]
    rfl
  · rfl

theorem isForm_convert (h : k.Suits numbers abbreviations (k.convert abbreviations s)) :
    k.isForm numbers (k.convert abbreviations s) = true := by
  obtain ⟨⟨c, r, ws, hwords, hc⟩, halnum⟩ := words_plain hs
  by_cases hk : k = title
  · subst hk
    exact isForm_convert_title hs h
  · have hword : ∀ x ∈ c :: r, isAscii x = true := fun x hx =>
      isAscii_of_alnum ((halnum _ (hwords ▸ mem_cons_self)).2 x hx)
    have hcamel : k = camel → upper (c :: r) ∉ abbreviations := by
      rintro rfl hmem
      refine h.start rfl _ hmem (by rw [upper_ascii hword]; exact cons_ne_nil _ _) ?_
      have hself : upper (upper (c :: r)) = upper (c :: r) := by
        rw [upper_ascii hword, upper_map hword (.inl rfl), upper_ascii hword]
      have hsplit (t : Text) : upper (upper (c :: r) ++ t) = upper (upper (c :: r)) ++ upper t := flatMap_append
      rw [convert, hwords, assemble, firstCamelWord, if_pos (by simpa using hmem), hsplit, hself]
      exact prefix_append _ _
    obtain ⟨d, u, hdu, hd⟩ := initial_assemble hk ws hword hc hcamel
    rw [← hwords] at hdu
    refine (isForm_iff hk).mpr ⟨d, u, hdu, hd, fun y hy => ?_⟩
    have hmem : y ∈ k.convert abbreviations s := by
      rw [convert, hdu]
      exact mem_cons_of_mem d hy
    exact inner_of_mem_assemble hk (fun w hw => (halnum w hw).2) hmem (h.digits y hmem)

theorem isForm_adjust (h : k.Suits numbers abbreviations (k.convert abbreviations s))
    (horder : ∀ a ∈ order, a ∈ abbreviations) :
    k.isForm numbers (k.adjust order (k.convert abbreviations s)) = true := by
  by_cases hk : k = title
  · subst hk
    rw [adjust_title hs h horder]
    exact isForm_convert hs h
  · refine isForm_of_recased hk (recased_adjust hk (isAscii_convert hs) order) ?_ (isForm_convert hs h)
    rintro rfl
    exact head?_adjust (by simp) (isAscii_convert hs) fun a ha => h.start rfl a (horder a ha)

end Plain

end Convention

end ViewLint
