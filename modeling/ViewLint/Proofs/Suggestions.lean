import ViewLint.Proofs.FixedNames

/-!
# What a suggestion keeps of a name

A suggested name is put together from the words of the old one. Four conventions always get the form that they
ask for. The letters of the name all come back, in another case at most. The digits come back as well, unless the
name is cut at its capitals: only letters belong to the words that such a cut gives.

* **`Naming.content_words`**, **`Convention.content_assemble`**: what the words keep, and what is put together.
* **`NamePattern.Config.suggestion_matches`**, **`NamePattern.Config.suggestion_keeps_content_iff`**: the form of a
  suggestion, and when it has the letters and digits of the name.
-/

namespace ViewLint

open List Text

variable {s : Text} {ws : List Text} {c : CodePoint}

theorem isAsciiAlnum_smallOf (c : CodePoint) : isAsciiAlnum (smallOf c) = isAsciiAlnum c := by
  rw [Bool.eq_iff_iff]
  simp only [isAsciiAlnum, isAsciiLetter, Naming.isCapital, Naming.isSmall, isAsciiDigit, toNat_smallOf,
    Bool.or_eq_true, Bool.and_eq_true, decide_eq_true_eq]
  split_ifs <;> omega

theorem isSmall_smallOf (c : CodePoint) : Naming.isSmall (smallOf c) = isAsciiLetter c := by
  rw [Bool.eq_iff_iff]
  simp only [isAsciiLetter, Naming.isCapital, Naming.isSmall, toNat_smallOf, Bool.or_eq_true, Bool.and_eq_true,
    decide_eq_true_eq]
  split_ifs <;> omega

namespace Naming

/-! ## Content -/

/-- The letters and digits of a text, the letters all small. -/
def content (s : Text) : Text := (s.filter isAsciiAlnum).map smallOf

theorem content_append (s t : Text) : content (s ++ t) = content s ++ content t := by
  simp [content]

theorem content_map_smallOf (s : Text) : content (s.map smallOf) = content s := by
  have halnum : isAsciiAlnum ∘ smallOf = isAsciiAlnum := funext isAsciiAlnum_smallOf
  rw [content, filter_map, halnum, map_map, content]
  exact map_congr_left fun c _ => by rw [Function.comp, ← smallOf_capitalOf, capitalOf_smallOf, smallOf_capitalOf]

theorem content_map_capitalOf (s : Text) : content (s.map capitalOf) = content s := by
  rw [← content_map_smallOf, map_map, ← content_map_smallOf s]
  exact congrArg content (map_congr_left fun c _ => smallOf_capitalOf c)

/-- The letters among the content of a text are the content of its letters. -/
theorem content_letters (s : Text) : content (s.filter isAsciiLetter) = (content s).filter isSmall := by
  have hletters : isSmall ∘ smallOf = isAsciiLetter := funext isSmall_smallOf
  rw [content, content, filter_map, hletters, filter_filter, filter_filter]
  simp only [Bool.and_comm]

theorem filter_content_eq_self_iff : (content s).filter isSmall = content s ↔ ∀ x ∈ s, isAsciiDigit x = false := by
  have hall : (content s).filter isSmall = content s ↔ ∀ x ∈ s, isAsciiAlnum x = true → isAsciiLetter x = true := by
    simp only [filter_eq_self, content, forall_mem_map, isSmall_smallOf, mem_filter, and_imp]
  rw [hall]
  refine forall₂_congr fun x _ => ⟨fun h => ?_, fun h halnum => ?_⟩
  · by_contra hdigit
    have hdigit := eq_true_of_ne_false hdigit
    have hletter := h (by simp [isAsciiAlnum, hdigit])
    simp only [isAsciiDigit, isAsciiLetter, isCapital, isSmall, Bool.or_eq_true, Bool.and_eq_true,
      decide_eq_true_eq] at hdigit hletter
    omega
  · exact (alnum_cases halnum).resolve_right (by simp [h])

theorem content_join {sep : Text} (hsep : content sep = []) (ws : List Text) :
    content (join sep ws) = content ws.flatten := by
  induction ws with
  | nil => rfl
  | cons w ws ih =>
    cases ws with
    | nil => simp [join]
    | cons v ws =>
      have hjoin : join sep (w :: v :: ws) = w ++ sep ++ join sep (v :: ws) := rfl
      rw [hjoin, content_append, content_append, hsep, ih, flatten_cons (l := w), content_append, append_nil]

theorem content_flatten_map {f : Text → Text} (hf : ∀ w ∈ ws, content (f w) = content w) :
    content (ws.map f).flatten = content ws.flatten := by
  induction ws with
  | nil => rfl
  | cons w ws ih =>
    obtain ⟨hw, hws⟩ := forall_mem_cons.mp hf
    rw [map_cons, flatten_cons, flatten_cons, content_append, content_append, hw, ih hws]

/-! ## Humps -/

theorem flatten_humps (s : Text) : (humps s).flatten = s.filter isAsciiLetter := by
  induction s with
  | nil => rfl
  | cons c s ih =>
    cases hc : isAsciiLetter c with
    | false => rw [humps_cons_other hc, ih, filter_cons_of_neg (by simp [hc])]
    | true =>
      rw [filter_cons_of_pos hc, ← ih]
      obtain ⟨-, word, more, hrest, hcut⟩ | ⟨-, hcut⟩ := humps_cons_letter hc s
      · rw [hcut, hrest]
        rfl
      · rw [hcut]
        rfl

/-! ## Words -/

theorem mem_of_mem_words {w : Text} (hw : w ∈ words s) (hc : c ∈ w) : c ∈ s := by
  simp only [words] at hw
  split at hw
  · exact mem_of_mem_strip (mem_of_mem_splitWhere (mem_filter.mp hw).1 hc).1
  · split at hw
    · cases hw
    · split at hw
      · have hmem : c ∈ (humps s).flatten := mem_flatten.mpr ⟨w, hw, hc⟩
        rw [flatten_humps] at hmem
        exact (mem_filter.mp hmem).1
      · rw [mem_singleton.mp hw] at hc
        exact mem_of_mem_strip hc

/-- **What the words of a name keep**: all letters and digits, but only the letters if there is no delimiter and
more than one hump. -/
theorem content_words (s : Text) : content (words s).flatten =
    if (strip s).any isDelimiter = false ∧ 1 < (humps s).length then (content s).filter isSmall else content s := by
  have hblank (x : CodePoint) (hx : isBlank x = true) : isAsciiAlnum x = false := by
    by_contra halnum
    rw [isBlank_of_alnum (eq_true_of_ne_false halnum)] at hx
    cases hx
  have hstrip : content (strip s) = content s := by rw [content, filter_strip hblank, content]
  rw [words]
  cases hdelimiter : (strip s).any isDelimiter with
  | true =>
    rw [if_pos rfl, if_neg (by simp), flatten_filter_not_isEmpty, flatten_splitWhere, ← hstrip, content,
      filter_filter, content]
    refine congrArg _ (filter_congr fun x _ => ?_)
    cases halnum : isAsciiAlnum x with
    | true => simp [isDelimiter_of_alnum halnum]
    | false => rfl
  | false =>
    simp only [Bool.false_eq_true, if_false, true_and]
    split
    · next hempty =>
      have hnone : content s = [] := by rw [← hstrip, isEmpty_iff.mp hempty]; rfl
      rw [hnone, filter_nil, ite_self]
      rfl
    · split
      · rw [flatten_humps, content_letters]
      · rw [flatten_singleton, hstrip]

end Naming

namespace Convention

open Naming

variable {k : Convention} {abbreviations : List Text}

/-- Putting words together loses none of their letters and digits. -/
theorem content_assemble (hws : ∀ w ∈ ws, ∀ x ∈ w, isAscii x = true) :
    content (k.assemble abbreviations ws) = content ws.flatten := by
  have hupper {w : Text} (hw : ∀ x ∈ w, isAscii x = true) : content (upper w) = content w := by
    rw [upper_ascii hw, content_map_capitalOf]
  have hlower : ∀ w ∈ ws, content (Text.lower w) = content w := fun w hw => by
    rw [Text.lower, lowerFrom_ascii (hws w hw), content_map_smallOf]
  have hcapital : ∀ w ∈ ws, content (capitalWord abbreviations w) = content w := by
    intro w hw
    rw [capitalWord]
    split
    · exact hupper (hws w hw)
    · cases w with
      | nil => rfl
      | cons c r =>
        obtain ⟨hc, hr⟩ := forall_mem_cons.mp (hws _ hw)
        have hfirst : capitalOf c :: r.map smallOf = [c].map capitalOf ++ r.map smallOf := rfl
        rw [capitalize_ascii hr hc, hfirst, content_append, content_map_capitalOf, content_map_smallOf,
          ← content_append]
        rfl
  cases k with
  | pascal => exact content_flatten_map hcapital
  | camel =>
    cases ws with
    | nil => rfl
    | cons w rest =>
      have hw := forall_mem_cons.mp hws
      rw [assemble, content_append, content_flatten_map (forall_mem_cons.mp hcapital).2, flatten_cons, content_append,
        firstCamelWord]
      split
      · rw [hupper hw.1]
      · rw [hlower w mem_cons_self]
  | snake | kebab | lower => rw [assemble, content_join (by decide), content_flatten_map hlower]
  | screaming =>
    have hascii : ∀ x ∈ join "_" (ws.map Text.lower), isAscii x = true :=
      @isAscii_of_mem_assemble _ snake abbreviations hws
    rw [assemble, hupper hascii, content_join (by decide), content_flatten_map hlower]
  | title => rw [assemble, content_join (by decide), content_flatten_map hcapital]

end Convention

/-! ## Suggestions -/

namespace NamePattern.Config

open Naming

variable {c : Config} {kind : NodeKind} {k : Convention}
  (hwriting : c.writingConvention kind = .ok (.str k.name))

include hwriting

/-- **A suggestion follows its convention.** A plain name is given the form of the convention that suggestions are
written by, whatever the abbreviations, if the convention is Pascal case or joins words by `_` or `-`. -/
theorem suggestion_matches (hk : k ∈ [Convention.pascal, .snake, .kebab, .screaming]) (hs : isPlainName s = true) :
    ∃ t, c.suggest kind (.str s) = .ok (some t) ∧ matchesPattern (.str k.pattern) (.str t) = .ok true := by
  refine ⟨_, suggest_eq hwriting s, (@matchesPattern_iff k true _).mpr ⟨_, rfl, .inl ?_⟩⟩
  refine Convention.isForm_convert hs ⟨fun _ _ _ => ?_, ?_, ?_⟩
  · simp only [mem_cons, not_mem_nil, or_false] at hk
    obtain rfl | rfl | rfl | rfl := hk <;> rfl
  · rintro rfl; simp at hk
  · rintro rfl; simp at hk

omit hwriting in
theorem suggestion_matches_api_key : ∃ t, (writing .screaming ["API"]).suggest .component (.str "_api-Key 2") =
    .ok (some t) ∧ matchesPattern (.str Convention.screaming.pattern) (.str t) = .ok true :=
  suggestion_matches (c := writing .screaming ["API"]) rfl (by decide) (by decide)

/-- **When a suggestion keeps the letters and digits of a name.** The letters of a name of ASCII come back in order,
up to case. The digits come back with them just if the name has a delimiter inside, or is cut into one word at most,
or has no digits. -/
theorem suggestion_keeps_content_iff (hs : ∀ x ∈ s, isAscii x = true) :
    ∃ t, c.suggest kind (.str s) = .ok (some t) ∧ (content t).filter isSmall = (content s).filter isSmall ∧
      (content t = content s ↔ (∃ x ∈ strip s, isDelimiter x = true) ∨ (humps s).length ≤ 1 ∨
        ∀ x ∈ s, isAsciiDigit x = false) := by
  have hcontent : content (k.convert c.abbreviationTexts s) = content (words s).flatten :=
    Convention.content_assemble fun w hw x hx => hs x (mem_of_mem_words hw hx)
  refine ⟨_, suggest_eq hwriting s, ?_⟩
  rw [hcontent, content_words, ← any_eq_true, ← Nat.not_lt]
  split
  · next hcut =>
    refine ⟨by simp [filter_filter], ?_⟩
    rw [filter_content_eq_self_iff]
    simp [hcut]
  · next hkept =>
    refine ⟨rfl, iff_of_true rfl ?_⟩
    by_contra hnone
    simp only [not_or, Bool.not_eq_true, not_not] at hnone
    exact hkept ⟨hnone.1, hnone.2.1⟩

omit hwriting in
theorem suggestion_keeps_content_my_button : ∃ t, (writing .snake []).suggest .component (.str "my-Button1") =
    .ok (some t) ∧ content t = "mybutton1" := by
  obtain ⟨t, hsuggest, -, hcontent⟩ := @suggestion_keeps_content_iff "my-Button1" (writing .snake [])
    .component .snake rfl (by decide)
  exact ⟨t, hsuggest, (hcontent.mpr (.inl (by decide))).trans (by decide)⟩

end NamePattern.Config

end ViewLint
