import ViewLint.Proofs.FixedNames

/-!
# Verdicts of the pattern

The rule does not match a name against the pattern of its convention, but what the search for abbreviations has
made of it. The patterns of PascalCase and camelCase tell only the first letter from the others, and the search
writes letters as capitals, so the verdict changes exactly if the first letter does.

* **`Convention.startsSmall_adjust`**: when the first letter becomes a capital.
* **`Convention.follows_adjust_iff`**: when the adjusted name has the verdict of the name.
* **`NamePattern.Config.follows_pattern_iff`**: when the rule says of a name what the pattern says.
-/

namespace ViewLint

open List

variable {n : Node} {s a old t r : Text}

namespace Text

/-- An exchange changes the first character of a text only if the exchanged text stands there. -/
theorem head?_replace {new : Text} (hold : old ≠ []) (hnew : new ≠ []) (s : Text) :
    (replace old new s).head? = if old <+: s then new.head? else s.head? := by
  by_cases hstart : old <+: s
  · rw [replace_of_start hold hstart, if_pos hstart, head?_append_of_ne_nil new hnew]
  · rw [if_neg hstart]
    cases s with
    | nil => rw [replace_nil hold]
    | cons c r => rw [replace_cons hold hstart, head?_cons, head?_cons]

/-- Nothing happens if a text is exchanged for itself. -/
theorem replace_same (hold : old ≠ []) (s : Text) : replace old old s = s := by
  induction s using occurrence_induction hold with
  | nil => exact replace_nil hold
  | found s hp ih =>
    obtain ⟨r, rfl⟩ := hp
    rw [replace_of_start hold (prefix_append old r), ih, drop_left]
  | other c r hp ih => rw [replace_cons hold hp, ih]

theorem Recased.map_eq {f : CodePoint → CodePoint} (hf : IsCase f) (h : Recased f s t) : t.map f = s.map f := by
  induction h with
  | nil => rfl
  | cons hc _ ih =>
    rw [map_cons, map_cons, ih]
    obtain ⟨-, rfl | rfl⟩ := hc
    · rfl
    · rw [hf.idem]

end Text

namespace Convention

open Naming Text

variable {order : List Text} {k : Convention} {numbers : Bool}

/-! ## Behind the first letter -/

/-- A text goes on as the names of a convention do, up to a line feed at its end. -/
def Continues (k : Convention) (numbers : Bool) (r : Text) : Prop :=
  (∀ d ∈ r, k.inner numbers d = true) ∨ ∃ t, (∀ d ∈ t, k.inner numbers d = true) ∧ r = t ++ [.char '\n']

theorem follows_cons (hk : k ≠ title) {c : CodePoint} :
    k.Follows numbers (c :: r) ↔ k.initial c = true ∧ k.Continues numbers r := by
  simp only [Follows, Continues, isForm_iff hk]
  constructor
  · rintro (⟨_, _, heq, hc, hr⟩ | ⟨_, ⟨d, t, rfl, hd, ht⟩, heq⟩)
    · cases heq
      exact ⟨hc, .inl hr⟩
    · cases heq
      exact ⟨hd, .inr ⟨t, ht, rfl⟩⟩
  · rintro ⟨hc, hr | ⟨t, ht, rfl⟩⟩
    · exact .inl ⟨c, r, rfl, hc, hr⟩
    · exact .inr ⟨c :: t, ⟨c, t, rfl, hc, ht⟩, rfl⟩

theorem not_follows_nil (hk : k ≠ title) : ¬ k.Follows numbers [] := by
  simp [Follows, isForm_iff hk]

section Mixed

variable (hk : k = pascal ∨ k = camel)

include hk

/-- Capitals and small letters may stand in the same places. -/
theorem inner_capitalOf_eq (c : CodePoint) : k.inner numbers (capitalOf c) = k.inner numbers c := by
  obtain heq | hcapital := capitalOf_cases c
  · rw [heq]
  · by_cases hsmall : isSmall c = true
    · obtain rfl | rfl := hk <;> simp [inner, hcapital, hsmall]
    · rw [capitalOf, if_neg hsmall]

theorem continues_map_capitalOf (r : Text) : k.Continues numbers (r.map capitalOf) ↔ k.Continues numbers r := by
  have hinner (u : Text) : (∀ d ∈ u.map capitalOf, k.inner numbers d = true) ↔ ∀ d ∈ u, k.inner numbers d = true := by
    simp only [forall_mem_map, inner_capitalOf_eq hk]
  have hbreak {c : CodePoint} (h : capitalOf c = .char '\n') : c = .char '\n' := by
    obtain heq | hcapital := capitalOf_cases c
    · rwa [← heq]
    · rw [h] at hcapital
      exact absurd hcapital (by decide)
  refine or_congr (hinner r) ⟨?_, ?_⟩
  · rintro ⟨_, ht, heq⟩
    obtain ⟨u, v, rfl, rfl, hv⟩ := map_eq_append_iff.mp heq
    obtain ⟨c, rfl, hc⟩ := map_eq_singleton_iff.mp hv
    exact ⟨u, (hinner u).mp ht, by rw [hbreak hc]⟩
  · rintro ⟨t, ht, rfl⟩
    refine ⟨t.map capitalOf, (hinner t).mpr ht, ?_⟩
    rw [map_append]
    rfl

end Mixed

/-! ## The first letter -/

/-- A text starts with a small letter. -/
def StartsSmall (s : Text) : Prop := ∃ c ∈ s.head?, isSmall c = true

/-- When its turn comes, an abbreviation stands in small letters at the start of a name. -/
def OpensShortened (order : List Text) (s : Text) : Prop :=
  ∃ front a back, order = front ++ a :: back ∧ a ≠ [] ∧ holds (upper s) a = true ∧
    Text.lower a <+: pascal.adjust front s

/-- **The first character of a text in which an abbreviation is written in capitals.** -/
theorem head?_capitalizeAbbreviation (hne : a ≠ []) (ha : ∀ c ∈ a, isAscii c = true)
    (hupper : upper a = a) (t : Text) :
    (capitalizeAbbreviation t a).head? = if Text.lower a <+: t then a.head? else t.head? := by
  obtain ⟨x, r, rfl⟩ := exists_cons_of_ne_nil hne
  obtain ⟨hx, hr⟩ := forall_mem_cons.mp ha
  have hsmall : Text.lower (x :: r) = (x :: r).map smallOf := lowerFrom_ascii ha []
  have hfirst : (capitalize (x :: r)).head? = some x := by
    have hcapital : capitalOf x :: r.map capitalOf = x :: r := by
      rw [← map_cons, ← upper_ascii ha, hupper]
    rw [capitalize_ascii hr hx, head?_cons, (cons.inj hcapital).1]
  have hcapitalized : capitalize (x :: r) ≠ [] := fun hnil => by
    rw [hnil] at hfirst
    cases hfirst
  have hunfold : capitalizeAbbreviation t (x :: r) =
      replace (capitalize (x :: r)) (x :: r) (replace (Text.lower (x :: r)) (x :: r) t) := by
    simp only [capitalizeAbbreviation, foldl_cons, foldl_nil, hupper, replace_same hne]
  have hlowered : Text.lower (x :: r) ≠ [] := by simp [hsmall]
  have hinside := head?_replace hlowered hne t
  rw [hunfold, head?_replace hcapitalized hne, ← hinside]
  -- Where the capitalized spelling stands at the start, the first letter is a capital already
  split
  · next hstart =>
    obtain ⟨u, hu⟩ := hstart
    rw [← hu, head?_append_of_ne_nil _ hcapitalized, hfirst, head?_cons]
  · rfl

theorem isSmall_capitalOf (c : CodePoint) : isSmall (capitalOf c) = false := by
  simp only [isSmall, toNat_capitalOf, Bool.and_eq_false_iff, decide_eq_false_iff_not]
  split_ifs <;> omega

/-- One abbreviation takes the first small letter just if it stands there in small letters. -/
theorem startsSmall_adjustStep (hs : ∀ c ∈ s, isAscii c = true) (a t : Text) : StartsSmall (pascal.adjustStep s t a) ↔
      StartsSmall t ∧ ¬ (a ≠ [] ∧ holds (upper s) a = true ∧ Text.lower a <+: t) := by
  rw [adjustStep]
  by_cases hfound : holds (upper s) a = true
  · rw [if_pos hfound]
    by_cases hne : a = []
    · subst hne
      have hsame : pascal.adjustOne t [] = t := by simp [adjustOne, capitalizeAbbreviation, upper, Text.lower,
        lowerFrom, capitalize, Text.replace]
      simp [hsame]
    · have hhead : (pascal.adjustOne t a).head? = if Text.lower a <+: t then a.head? else t.head? :=
        head?_capitalizeAbbreviation hne (isAscii_of_found hs hfound) (upper_of_holds hs hfound) t
      rw [StartsSmall, hhead]
      split
      · next hstart =>
        obtain ⟨x, r, rfl⟩ := exists_cons_of_ne_nil hne
        obtain ⟨c, -, rfl⟩ := exists_of_mem_found hs hfound x mem_cons_self
        simp [isSmall_capitalOf, hfound, hstart]
      · next hstart => simp [StartsSmall, hstart]
  · simp [hfound]

/-- **A name starts with a small letter after the search for abbreviations** just if it did before, and no
abbreviation stands there in small letters when its turn comes. -/
theorem startsSmall_adjust (hs : ∀ c ∈ s, isAscii c = true) (order : List Text) :
    StartsSmall (pascal.adjust order s) ↔ StartsSmall s ∧ ¬ OpensShortened order s := by
  -- From the end of the order, as the split says what has been tried before
  induction order using reverseRecOn with
  | nil => simp [adjust, OpensShortened]
  | append_singleton order a ih =>
    have hsplit : OpensShortened (order ++ [a]) s ↔ OpensShortened order s ∨
        a ≠ [] ∧ holds (upper s) a = true ∧ Text.lower a <+: pascal.adjust order s := by
      constructor
      · rintro ⟨front, b, back, heq, hb⟩
        obtain rfl | ⟨back, c, rfl⟩ := eq_nil_or_concat' back
        · obtain ⟨rfl, hlast⟩ := append_inj' heq rfl
          cases hlast
          exact .inr hb
        · rw [← cons_append, ← append_assoc] at heq
          exact .inl ⟨front, b, back, (append_inj' heq rfl).1, hb⟩
      · rintro (⟨front, b, back, rfl, hb⟩ | hlast)
        · exact ⟨front, b, back ++ [a], by simp, hb⟩
        · exact ⟨order, a, [], rfl, hlast⟩
    rw [adjust_eq, foldl_append, foldl_cons, foldl_nil, ← adjust_eq, startsSmall_adjustStep hs, ih,
      hsplit, not_or, and_assoc]

/-- What stands in small letters at the start of an adjusted name stands in the name itself. -/
theorem prefix_of_recased {w : Text} (hw : ∀ d ∈ w, isCapital d = false) (h : Recased capitalOf s t)
    (hstart : w <+: t) : w <+: s := by
  induction w generalizing s t with
  | nil => exact nil_prefix
  | cons d w ih =>
    obtain ⟨hd, hw⟩ := forall_mem_cons.mp hw
    obtain ⟨u, rfl⟩ := hstart
    cases h with
    | @cons c _ r _ hc hr =>
      have hsame : d = c := by
        obtain ⟨-, rfl | rfl⟩ := hc
        · rfl
        · exact (capitalOf_cases c).resolve_right (by simp [hd])
      exact cons_prefix_cons.mpr ⟨hsame, ih hw hr (prefix_append w u)⟩

theorem isCapital_smallOf (c : CodePoint) : isCapital (smallOf c) = false := by
  simp only [isCapital, toNat_smallOf, Bool.and_eq_false_iff, decide_eq_false_iff_not]
  split_ifs <;> omega

/-- An abbreviation that takes the first letter stands in small letters at the start of the name itself. -/
theorem exists_of_opensShortened (hs : ∀ c ∈ s, isAscii c = true)
    (h : OpensShortened order s) : ∃ a ∈ order, a ≠ [] ∧ Text.lower a <+: s := by
  obtain ⟨front, a, back, rfl, hne, hfound, hstart⟩ := h
  refine ⟨a, by simp, hne, prefix_of_recased ?_ (recased_adjust (k := pascal) nofun hs front) hstart⟩
  have hlower : Text.lower a = a.map smallOf := lowerFrom_ascii (isAscii_of_found hs hfound) []
  rw [hlower]
  exact forall_mem_map.mpr fun x _ => isCapital_smallOf x

/-! ## Forms -/

/-- **The adjusted name has the verdict of the name**, unless the name follows camelCase and an abbreviation takes
its first letter. -/
theorem follows_adjust_iff (hk : k = pascal ∨ k = camel) (hs : ∀ c ∈ s, isAscii c = true)
    (order : List Text) : (k.Follows numbers (k.adjust order s) ↔ k.Follows numbers s) ↔
      ¬ (camel.Follows numbers s ∧ OpensShortened order s) := by
  have hadjust : k.adjust order s = pascal.adjust order s := by obtain rfl | rfl := hk <;> rfl
  have hcontinues : k.Continues numbers = camel.Continues numbers := by obtain rfl | rfl := hk <;> rfl
  have htitle : k ≠ title := by obtain rfl | rfl := hk <;> exact nofun
  have hrecased : Recased capitalOf s (pascal.adjust order s) := recased_adjust (k := pascal) nofun hs order
  have hsmall := startsSmall_adjust hs order
  rw [hadjust]
  generalize pascal.adjust order s = u at hrecased hsmall ⊢
  generalize OpensShortened order s = shortened at hsmall ⊢
  cases hrecased with
  | nil => simp [not_follows_nil (k := camel) nofun, not_follows_nil htitle]
  | @cons c d r t hd ht =>
    simp only [StartsSmall, head?_cons, Option.mem_some_iff, exists_eq_left'] at hsmall
    rw [follows_cons htitle, follows_cons htitle, follows_cons (k := camel) nofun, hcontinues,
      ← continues_map_capitalOf (.inr rfl) t, Recased.map_eq isCase_capitalOf ht,
      continues_map_capitalOf (.inr rfl) r]
    have hpascal : pascal.initial = isCapital := rfl
    have hcamel : camel.initial = isSmall := rfl
    by_cases hc : isSmall c = true
    · have hcapital : isCapital c = false := by
        simp only [isSmall, Bool.and_eq_true, decide_eq_true_eq] at hc
        simp only [isCapital, Bool.and_eq_false_iff, decide_eq_false_iff_not]
        omega
      have hother : isCapital d = true ↔ isSmall d = false := by
        obtain ⟨-, rfl | rfl⟩ := hd
        · simp [hc, hcapital]
        · simp [isSmall_capitalOf, (letter_forms (c := c) (by simp [isAsciiLetter, hc])).1]
      simp only [hc, true_and] at hsmall
      by_cases hr : camel.Continues numbers r
      · obtain rfl | rfl := hk
        · simp [hpascal, hcamel, hc, hcapital, hother, ← Bool.not_eq_true, hsmall, hr]
        · simp [hcamel, hc, hsmall, hr]
      · simp [hr]
    · have hsame : d = c := by
        obtain ⟨-, rfl | rfl⟩ := hd
        · rfl
        · rw [capitalOf, if_neg hc]
      simp [hsame, hcamel, hc]

end Convention

namespace NamePattern.Config

open Naming

/-! ## The rule with a convention -/

/-- What a configuration that gives a convention stands for. -/
theorem create_convention (k : Convention) :
    create (.object [("convention", .str k.name)]) = ⟨[], .ok (writing k commonAbbreviations)⟩ := by
  cases k <;> rfl

theorem abbreviationTexts_writing (k : Convention) (abbreviations : List Text) :
    (writing k abbreviations).abbreviationTexts = abbreviations := by
  simp [abbreviationTexts, writing, shortening, filterMap_map, Function.comp_def, Json.str?]

theorem setting_writing (k : Convention) (abbreviations : List Text) (kind : NodeKind) (key : Text) (general : Json) :
    (writing k abbreviations).setting kind key general = .ok general := rfl

/-- With a convention alone, only `root` is skipped, no name is forbidden and one character is enough. -/
theorem validateBy_eq_validateForm (k : Convention) (abbreviations order : List Text) (hne : s ≠ [])
    (hroot : s ≠ "root") : (writing k abbreviations).validateBy order .component (.str s) =
      (writing k abbreviations).validateForm order .component (.str s) := by
  have hskipped : (writing k abbreviations).skipped.holds (.str s) = .ok false := by
    have hkey : (Key.name "root" == Key.name s) = false := by
      rw [Key.name_beq_name, decide_eq_false_iff_not]
      exact hroot.symm
    have hget : Fields.get? [(Key.name "root", Json.null)] (.name s) = none := by
      rw [Fields.get?_cons, hkey]
      rfl
    exact congrArg (fun o => Except.ok (Option.isSome o)) hget
  have hforbidden : (writing k abbreviations).forbidden.holds (.str s) = .ok false := rfl
  have hlength : Json.countBelow s.length (writing k abbreviations).minLength = .ok false := by
    have hpos := length_pos_iff.mpr hne
    have hcompare : compare (s.length : Int) 1 ≠ .lt := by
      rw [ne_eq, Int.compare_eq_lt]
      omega
    exact congrArg Except.ok (beq_eq_false_iff_ne.mpr fun h => hcompare (Option.some.inj h))
  have hlongest : (writing k abbreviations).maxLength.isTrue = false := rfl
  simp only [validateBy, setting_writing, bind, Except.bind, hskipped, hforbidden, Json.length, hlength, hlongest,
    Bool.false_eq_true, if_false]

/-- **What is said of a name that is checked**: the form of the adjusted name decides. -/
theorem validateBy_writing (k : Convention) (order : List Text) (hne : s ≠ []) (hroot : s ≠ "root") :
    ∃ complaints, (writing k commonAbbreviations).validateBy order .component (.str s) = .ok complaints ∧
      (complaints = [] ↔ k.Follows true (k.adjust order s)) := by
  have hwriting : (writing k commonAbbreviations).writingConvention .component = .ok (.str k.name) := by cases k <;> rfl
  have hadjust : (writing k commonAbbreviations).adjustBy order .component (.str s) = .ok (.str (k.adjust order s)) :=
    adjustBy_eq_str hwriting (fun a ha => by
      obtain ⟨w, -, rfl⟩ := mem_map.mp ha
      exact ⟨w, rfl⟩) rfl order s
  have hnil : (writing k commonAbbreviations).validateForm order .component (.str s) = .ok [] ↔
      k.Follows true (k.adjust order s) := by
    have hpattern : (writing k commonAbbreviations).setting .component "pattern"
        (writing k commonAbbreviations).pattern = .ok (.str (k.patternWith true)) := rfl
    rw [validateForm_eq_nil_iff hpattern, hadjust]
    simp
  obtain ⟨complaints, hcomplaints⟩ :
      ∃ complaints, (writing k commonAbbreviations).validateForm order .component (.str s) = .ok complaints := by
    have hmatch : matchesPattern (.str k.pattern) (.str (k.adjust order s)) =
        .ok ((k.form true).matchStart? (k.adjust order s)).isSome := by
      rw [matchesPattern, show Pattern.parse k.pattern = _ from k.parse_patternWith true]
    have hsuggests : (writing k commonAbbreviations).suggests .component = .ok true := by cases k <;> rfl
    have hpattern : (writing k commonAbbreviations).pattern = .str k.pattern := rfl
    simp only [validateForm, setting_writing, hpattern, hadjust, hmatch, hsuggests, suggest_eq hwriting, bind,
      Except.bind]
    split_ifs <;> exact ⟨_, rfl⟩
  refine ⟨complaints, (validateBy_eq_validateForm k _ order hne hroot).trans hcomplaints, ?_⟩
  rw [← hnil, hcomplaints, Except.ok.injEq]

/-- The pattern of a convention matches a name. -/
def Matches (k : Convention) (s : Text) : Prop := matchesPattern (.str k.pattern) (.str s) = .ok true

theorem matches_iff_follows {k : Convention} : Matches k s ↔ k.Follows true s := by
  have h : matchesPattern (.str (k.patternWith true)) (.str s) = .ok true ↔
      ∃ u, Json.str s = .str u ∧ k.Follows true u := matchesPattern_iff
  exact Iff.trans h (by simp)

theorem check_component {c : Config} (hkind : n.kind = .component) (hname : (nameOf n).isTrue = true)
    (hadmits : c.scope.admits n = .ok true) {severity : Json}
    (hseverity : c.setting .component "severity" (.str c.scope.severity.name) = .ok severity)
    {complaints : List Text} (h : c.validate .component (nameOf n) = .ok complaints) :
    ∃ findings, c.check none [n] = .ok (findings, []) ∧ (findings = [] ↔ complaints = []) := by
  have hpreset : isPresetProperty n = false := by simp [isPresetProperty, hkind]
  have hchecked : [NodeKind.component, .messageHandler, .customMethod, .property].contains .component = true := rfl
  have hselect : c.scope.select [n] = .ok [n] := by
    simp [Scope.select, filterM, filterAuxM, hadmits, bind, Except.bind, pure, Except.pure]
  obtain ⟨findings, hinspect, hiff⟩ :
      ∃ findings, c.inspect none n = .ok (findings, []) ∧ (findings = [] ↔ complaints = []) := by
    simp only [inspect, hkind, hpreset, hchecked, hname, hseverity, h, Bool.not_true, Bool.or_false,
      Bool.false_eq_true, if_false]
    exact ⟨_, rfl, by simp⟩
  refine ⟨findings, bind_eq_ok.mpr ⟨[n], hselect, bind_eq_ok.mpr ⟨[(findings, [])], ?_, ?_⟩⟩, hiff⟩
  · simp only [mapM_cons, mapM_nil, hinspect]
    rfl
  · simp [pure, Except.pure]

/-- The rule looks at every component. -/
theorem admits_writing (k : Convention) (abbreviations : List Text) (hkind : n.kind = .component) :
    (writing k abbreviations).scope.admits n = .ok true := by
  have htargets : (writing k abbreviations).scope.targets.admits n.kind = .ok true := by
    rw [hkind]
    rfl
  have hprivate : n.isPrivateProperty = .ok false := by
    rw [Node.isPrivateProperty]
    split
    · next hdata =>
      rw [Node.kind, hdata] at hkind
      cases hkind
    · next hdata =>
      rw [Node.kind, hdata] at hkind
      cases hkind
    · rfl
  simp only [Scope.admits, htargets, hprivate]
  rfl

/-- **What is said of a component whose name is checked.** -/
theorem check_writing (k : Convention) (hne : s ≠ []) (hroot : s ≠ "root")
    (hkind : n.kind = .component) (hname : nameOf n = .str s) :
    ∃ findings, (writing k commonAbbreviations).check none [n] = .ok (findings, []) ∧
      (findings = [] ↔ k.Follows true (k.adjust (writing k commonAbbreviations).order s)) := by
  obtain ⟨complaints, hvalid, hiff⟩ := validateBy_writing k (writing k commonAbbreviations).order hne hroot
  have htrue : (nameOf n).isTrue = true := by simpa [hname, Json.isTrue] using hne
  obtain ⟨findings, hcheck, hfindings⟩ := check_component hkind htrue (admits_writing k _ hkind) rfl
    (hname ▸ hvalid : (writing k commonAbbreviations).validate .component (nameOf n) = .ok complaints)
  exact ⟨findings, hcheck, hfindings.trans hiff⟩

/-- **When the rule says of a name what the pattern says.** Let a configuration give PascalCase or camelCase and
nothing else. Whatever the order of the abbreviations, the verdict on a name of ASCII is that of the pattern, unless
the name matches the pattern of camelCase and an abbreviation stands in small letters at its start when its turn
comes: PascalCase then passes over the name, and camelCase complains of it. -/
theorem follows_pattern_iff (k : Convention) (hk : k = .pascal ∨ k = .camel) (s : Text)
    (hascii : ∀ c ∈ s, isAscii c = true) (hne : s ≠ []) (hroot : s ≠ "root") :
    ∃ c, create (.object [("convention", .str k.name)]) = ⟨[], .ok c⟩ ∧
      (∀ e, Enumerates e c.abbreviationTexts → ∃ complaints,
        c.validateBy (longestFirst e) .component (.str s) = .ok complaints ∧ ((complaints = [] ↔ Matches k s) ↔
            ¬ (Matches .camel s ∧ Convention.OpensShortened (longestFirst e) s)) ∧
          ((∀ a ∈ c.abbreviationTexts, a ≠ [] → ¬ Text.lower a <+: s) → (complaints = [] ↔ Matches k s))) ∧
      ∀ n, n.kind = .component → nameOf n = .str s → ∃ findings, c.check none [n] = .ok (findings, []) ∧
        ((findings = [] ↔ Matches k s) ↔ ¬ (Matches .camel s ∧ Convention.OpensShortened c.order s)) := by
  have hverdict (order : List Text) {silent : Prop} (h : silent ↔ k.Follows true (k.adjust order s)) :
      (silent ↔ Matches k s) ↔ ¬ (Matches .camel s ∧ Convention.OpensShortened order s) := by
    rw [h, matches_iff_follows, matches_iff_follows, Convention.follows_adjust_iff hk hascii]
  refine ⟨_, create_convention k, fun e he => ?_, fun n hkind hname => ?_⟩
  · obtain ⟨complaints, hvalid, hiff⟩ := validateBy_writing k (longestFirst e) hne hroot
    refine ⟨complaints, hvalid, hverdict _ hiff, fun hfree => (hverdict _ hiff).mpr fun hopens => ?_⟩
    obtain ⟨a, ha, hnil, hstart⟩ := Convention.exists_of_opensShortened hascii hopens.2
    exact hfree a ((he.mem_iff a).mp ((mergeSort_perm e _).subset ha)) hnil hstart
  · obtain ⟨findings, hcheck, hiff⟩ := check_writing k hne hroot hkind hname
    exact ⟨findings, hcheck, hverdict _ hiff⟩

/-- Abbreviations inside a name and at its end. -/
theorem follows_pattern_iff_valid_id : ∃ c,
    create (.object [("convention", .str Convention.camel.name)]) = ⟨[], .ok c⟩ ∧
      c.check none [lone "validId"] = .ok ([], []) := by
  obtain ⟨c, hcreate, -, hcheck⟩ := follows_pattern_iff .camel (.inr rfl) "validId" (by decide) (by decide) (by decide)
  obtain ⟨findings, hfindings, hiff⟩ := hcheck (lone "validId") rfl rfl
  obtain rfl : writing .camel commonAbbreviations = c := by
    rw [create_convention] at hcreate
    exact Except.ok.inj (Remarked.mk.inj hcreate).2
  have hmatches : Matches .camel "validId" := matches_iff_follows.mpr (.inl (by decide))
  have hnone : ∀ a ∈ commonAbbreviations, ¬ Text.lower a <+: "validId" := by decide +kernel
  obtain rfl : findings = [] := by
    refine (hiff.mpr fun hopens => ?_).mpr hmatches
    obtain ⟨a, ha, -, hstart⟩ := Convention.exists_of_opensShortened (by decide) hopens.2
    have hmem := mem_abbreviationTexts ha
    rw [abbreviationTexts_writing] at hmem
    exact hnone a hmem hstart
  exact ⟨_, hcreate, hfindings⟩

/-- The abbreviation at the start of `idea`: PascalCase lets the name pass, and camelCase does not. -/
theorem not_follows_pattern_idea : ∃ pascal camel findings,
    create (.object [("convention", .str Convention.pascal.name)]) = ⟨[], .ok pascal⟩ ∧
      pascal.check none [lone "idea"] = .ok ([], []) ∧ ¬ Matches .pascal "idea" ∧
      create (.object [("convention", .str Convention.camel.name)]) = ⟨[], .ok camel⟩ ∧
      camel.check none [lone "idea"] = .ok (findings, []) ∧ findings ≠ [] ∧ Matches .camel "idea" := by
  have hnodup : commonAbbreviations.Nodup := by decide +kernel
  have hfound : commonAbbreviations.filter (Text.holds (Text.upper "idea")) = [Text.ofString "ID"] := by
    decide +kernel
  -- No other abbreviation stands in the name, so the order does not matter.
  have hadjust (k : Convention) : k.adjust (writing k commonAbbreviations).order "idea" = k.adjust ["ID"] "idea" := by
    have hperm : (writing k commonAbbreviations).order.Perm commonAbbreviations := by
      rw [order, abbreviationTexts_writing]
      exact (mergeSort_perm _ _).trans ((enumerates_sort_dedup _).perm ⟨hnodup, fun _ => Iff.rfl⟩)
    have hfilter := hperm.filter (Text.holds (Text.upper "idea"))
    rw [hfound, perm_singleton] at hfilter
    rw [Convention.adjust, ← foldl_filter, hfilter]
    rfl
  have hcapitals : Convention.pascal.adjust ["ID"] "idea" = "IDea" ∧ Convention.camel.adjust ["ID"] "idea" = "IDea" := by
    decide +kernel
  have hlone {k : Convention} := check_writing k (s := "idea") (by decide) (by decide) (n := lone "idea") rfl rfl
  obtain ⟨passed, hpassed, hpassedIff⟩ := hlone (k := .pascal)
  obtain ⟨findings, hfindings, hfindingsIff⟩ := hlone (k := .camel)
  rw [hadjust, hcapitals.1] at hpassedIff
  rw [hadjust, hcapitals.2] at hfindingsIff
  obtain rfl := hpassedIff.mpr (.inl (by decide))
  refine ⟨_, _, findings, create_convention .pascal, hpassed, fun h => ?_, create_convention .camel, hfindings,
    fun hnil => ?_, matches_iff_follows.mpr (.inl (by decide))⟩
  · exact absurd ((Convention.follows_cons (k := .pascal) (by decide)).mp (matches_iff_follows.mp h)).1 (by decide)
  · exact absurd ((Convention.follows_cons (k := .camel) (by decide)).mp (hfindingsIff.mp hnil)).1 (by decide)

end NamePattern.Config

end ViewLint
