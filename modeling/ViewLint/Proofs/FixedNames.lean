import ViewLint.Proofs.ComponentFix
import ViewLint.Proofs.WrittenNames

/-!
# Names that a fix gives

A fix of the naming rule gives a component the name that the rule suggests. The check of that name is not the
check of the old one: it may be forbidden or too long, and it may lack the form that the rule asks for, so that
the rule complains about it again.

* `NamePattern.Config.Skips`, `NamePattern.Config.LetsThrough`: what is checked besides the form.
* **`NamePattern.Config.renamed_passes_iff`**: when the rule is content with the name that a fix gives.
-/

namespace ViewLint.NamePattern.Config

variable {c : Config} {kind : NodeKind}

/-! ## The checks of a name -/

/-- A name is not checked at all. -/
def Skips (c : Config) (kind : NodeKind) (name : Json) : Prop :=
  ∃ names, c.setting kind "skip_names" c.skipped = .ok names ∧ names.holds name = .ok true

/-- A name is checked, it is not forbidden, and its length is within the limits. -/
structure LetsThrough (c : Config) (kind : NodeKind) (name : Json) : Prop where
  checked : ∃ names, c.setting kind "skip_names" c.skipped = .ok names ∧ names.holds name = .ok false
  allowed : ∃ names, c.setting kind "forbidden_names" c.forbidden = .ok names ∧ names.holds name = .ok false
  limited : ∃ shortest longest length, c.setting kind "min_length" c.minLength = .ok shortest ∧
    c.setting kind "max_length" c.maxLength = .ok longest ∧ name.length = .ok length ∧
    Json.countBelow length shortest = .ok false ∧ (longest.isTrue = true → Json.countAbove length longest = .ok false)

/-- **The names that are right**: those that are skipped, and those that pass all checks. -/
theorem validate_eq_nil_iff {name : Json} : c.validate kind name = .ok [] ↔
    c.Skips kind name ∨ c.LetsThrough kind name ∧ c.validateForm c.order kind name = .ok [] := by
  constructor
  · intro h
    obtain ⟨skipped, hskipped, h⟩ := bind_eq_ok.mp h
    obtain ⟨skip, hskip, h⟩ := bind_eq_ok.mp h
    cases skip with
    | true => exact .inl ⟨skipped, hskipped, hskip⟩
    | false =>
      obtain ⟨forbidden, hforbidden, h⟩ := bind_eq_ok.mp h
      obtain ⟨forbid, hforbid, h⟩ := bind_eq_ok.mp h
      cases forbid with
      | true => cases h
      | false =>
        obtain ⟨shortest, hshortest, h⟩ := bind_eq_ok.mp h
        obtain ⟨longest, hlongest, h⟩ := bind_eq_ok.mp h
        obtain ⟨length, hlength, h⟩ := bind_eq_ok.mp h
        obtain ⟨short, hshort, h⟩ := bind_eq_ok.mp h
        cases short with
        | true => cases h
        | false =>
          have hlimits (hlong : longest.isTrue = true → Json.countAbove length longest = .ok false)
              (h : c.validateForm c.order kind name = .ok []) : c.Skips kind name ∨
                c.LetsThrough kind name ∧ c.validateForm c.order kind name = .ok [] :=
            .inr ⟨⟨⟨skipped, hskipped, hskip⟩, ⟨forbidden, hforbidden, hforbid⟩,
              shortest, longest, length, hshortest, hlongest, hlength, hshort, hlong⟩, h⟩
          by_cases hbound : longest.isTrue = true
          · simp only [Bool.false_eq_true, if_false, hbound, if_true] at h
            obtain ⟨long, hlong, h⟩ := bind_eq_ok.mp h
            cases long with
            | true => cases h
            | false => exact hlimits (fun _ => hlong) h
          · simp only [Bool.false_eq_true, if_false, hbound] at h
            exact hlimits (fun h => absurd h hbound) h
  · rintro (⟨skipped, hskipped, hskip⟩ | ⟨⟨⟨skipped, hskipped, hskip⟩, ⟨forbidden, hforbidden, hforbid⟩,
      shortest, longest, length, hshortest, hlongest, hlength, hshort, hlong⟩, hform⟩)
    · exact bind_eq_ok.mpr ⟨skipped, hskipped, bind_eq_ok.mpr ⟨true, hskip, rfl⟩⟩
    · refine bind_eq_ok.mpr ⟨skipped, hskipped, bind_eq_ok.mpr ⟨false, hskip, bind_eq_ok.mpr ⟨forbidden, hforbidden,
        bind_eq_ok.mpr ⟨false, hforbid, bind_eq_ok.mpr ⟨shortest, hshortest, bind_eq_ok.mpr ⟨longest, hlongest,
        bind_eq_ok.mpr ⟨length, hlength, bind_eq_ok.mpr ⟨false, hshort, ?_⟩⟩⟩⟩⟩⟩⟩⟩
      by_cases hbound : longest.isTrue = true
      · simp only [Bool.false_eq_true, if_false, hbound, if_true]
        exact bind_eq_ok.mpr ⟨false, hlong hbound, hform⟩
      · simp only [Bool.false_eq_true, if_false, hbound]
        exact hform

/-- Either all settings of a kind can be looked up or none. -/
theorem exists_setting {key : Text} {general v : Json} (h : c.setting kind key general = .ok v) (other : Text)
    (value : Json) : ∃ w, c.setting kind other value = .ok w := by
  rw [setting] at h ⊢
  split at h
  · exact ⟨_, rfl⟩
  · exact ⟨_, rfl⟩
  · cases h

section Form

variable {k : Convention} {numbers : Bool}

theorem matchesPattern_iff {value : Json} : matchesPattern (.str (k.patternWith numbers)) value = .ok true ↔
    ∃ u, value = .str u ∧ k.Follows numbers u := by
  have hparse := k.parse_patternWith numbers
  cases value with
  | str u =>
    rw [matchesPattern, hparse]
    simp only [Except.ok.injEq, k.matches_iff, Json.str.injEq, exists_eq_left']
  | _ => simp [matchesPattern, hparse]

variable (hpattern : c.setting kind "pattern" c.pattern = .ok (.str (k.patternWith numbers)))

include hpattern

/-- A form is right if the name, with its abbreviations adjusted, follows the convention. -/
theorem validateForm_eq_nil_iff {order : List Text} {name : Json} : c.validateForm order kind name = .ok [] ↔
    ∃ u, c.adjustBy order kind name = .ok (.str u) ∧ k.Follows numbers u := by
  obtain ⟨description, hdescription⟩ := exists_setting hpattern "pattern_description" (.str c.description)
  constructor
  · intro h
    obtain ⟨p, hp, h⟩ := bind_eq_ok.mp h
    obtain ⟨d, hd, h⟩ := bind_eq_ok.mp h
    obtain ⟨value, hvalue, h⟩ := bind_eq_ok.mp h
    obtain ⟨b, hb, h⟩ := bind_eq_ok.mp h
    cases hpattern.symm.trans hp
    cases b with
    | true =>
      obtain ⟨u, rfl, hu⟩ := matchesPattern_iff.mp hb
      exact ⟨u, hvalue, hu⟩
    | false =>
      obtain ⟨suggests, -, h⟩ := bind_eq_ok.mp h
      cases suggests with
      | false => cases h
      | true =>
        obtain ⟨suggestion, -, h⟩ := bind_eq_ok.mp h
        cases suggestion with
        | none => cases h
        | some text =>
          simp only at h
          split at h <;> cases h
  · rintro ⟨u, hvalue, hu⟩
    exact bind_eq_ok.mpr ⟨_, hpattern, bind_eq_ok.mpr ⟨_, hdescription, bind_eq_ok.mpr ⟨_, hvalue,
      bind_eq_ok.mpr ⟨true, matchesPattern_iff.mpr ⟨u, rfl, hu⟩, rfl⟩⟩⟩⟩

end Form

/-! ## The name that is suggested -/

section Writing

variable {k : Convention} (hwriting : c.writingConvention kind = .ok (.str k.name))

include hwriting

omit hwriting in
theorem ofName?_name : Convention.ofName? k.name = some k ∧ (Json.str k.name).isTrue = true := by
  cases k <;> decide

theorem suggest_eq (s : Text) : c.suggest kind (.str s) = .ok (some (k.convert c.abbreviationTexts s)) := by
  obtain ⟨hname, htrue⟩ := ofName?_name (k := k)
  obtain ⟨suggestion, hsuggestion, h⟩ := bind_eq_ok.mp hwriting
  refine bind_eq_ok.mpr ⟨suggestion, hsuggestion, ?_⟩
  by_cases hgiven : suggestion.isTrue = true
  · simp only [hgiven, if_true] at h ⊢
    cases h
    simp only [Json.str?, Option.bind_some, hname]
    rfl
  · simp only [hgiven] at h ⊢
    refine bind_eq_ok.mpr ⟨.str k.name, h, ?_⟩
    have hconvention : conventionOf? (.str k.name) = .ok (some k) := by rw [← hname]; rfl
    simp only [htrue, hconvention]
    rfl

variable (habbreviations : ∀ a ∈ c.abbreviations, ∃ w, a = .str w)

include habbreviations

theorem adjustBy_eq_str (hsome : c.abbreviations.isEmpty = false) (order : List Text) (t : Text) :
    c.adjustBy order kind (.str t) = .ok (.str (k.adjust order t)) := by
  obtain ⟨hname, htrue⟩ := ofName?_name (k := k)
  obtain ⟨lengths, hlengths⟩ : ∃ lengths, c.abbreviations.mapM Json.length = .ok lengths := by
    refine exists_mapM_ok fun a ha => ?_
    obtain ⟨w, rfl⟩ := habbreviations a ha
    exact ⟨w.length, rfl⟩
  rw [adjustBy, hsome]
  refine bind_eq_ok.mpr ⟨_, hwriting, ?_⟩
  simp only [htrue]
  refine bind_eq_ok.mpr ⟨lengths, hlengths, ?_⟩
  simp only [Json.str?, Option.bind_some, hname]
  rfl

theorem adjust_eq_str (t : Text) : c.adjust kind (.str t) = .ok (.str (k.adjust c.order t)) := by
  cases hsome : c.abbreviations.isEmpty with
  | true =>
    have horder : c.order = [] := by
      simp [order, abbreviationTexts, List.isEmpty_iff.mp hsome, Naming.tryOrder, Naming.longestFirst, Text.sort,
        Text.dedup]
    rw [adjust, adjustBy, hsome, horder]
    rfl
  | false => exact adjustBy_eq_str hwriting habbreviations hsome c.order t

end Writing

theorem mem_abbreviationTexts {a : Text} (h : a ∈ c.order) : a ∈ c.abbreviationTexts :=
  ((enumerates_sort_dedup _).mem_iff a).mp ((List.mergeSort_perm _ _).subset h)

/-! ## The name that a fix gives -/

theorem inspect_eq_nil_iff {n : Node} (hkind : n.kind = .component) (hname : (nameOf n).isTrue = true) {severity : Json}
    (hseverity : c.setting .component "severity" (.str c.scope.severity.name) = .ok severity)
    (context : Option FixContext) :
    c.inspect context n = .ok ([], []) ↔ c.validate .component (nameOf n) = .ok [] := by
  have hpreset : isPresetProperty n = false := by simp [isPresetProperty, hkind]
  have hchecked : [NodeKind.component, .messageHandler, .customMethod, .property].contains .component = true := rfl
  simp only [inspect, hkind, hpreset, hchecked, hname, hseverity, Bool.not_true, Bool.or_false, Bool.false_eq_true,
    if_false]
  constructor
  · intro h
    obtain ⟨_, -, h⟩ := bind_eq_ok.mp h
    obtain ⟨complaints, hcomplaints, h⟩ := bind_eq_ok.mp h
    cases complaints with
    | nil => exact hcomplaints
    | cons complaint complaints =>
      cases context with
      | none => cases h
      | some context =>
        obtain ⟨fixes, -, h⟩ := bind_eq_ok.mp h
        cases h
  · intro h
    refine bind_eq_ok.mpr ⟨_, rfl, bind_eq_ok.mpr ⟨[], h, ?_⟩⟩
    cases context <;> rfl

/-- **When the rule is content with the name that a fix gives.** Let the pattern for components be that of a
convention. The new name is right just if it is skipped, or if it passes the other checks and follows the
convention once its abbreviations are adjusted. If suggestions are written by this convention as well, the old
name was plain and the new one suits the convention, then nothing but the other checks can go wrong. A component
with the new name is passed over in silence just if the name is right. -/
theorem renamed_passes_iff (c : Config) (k : Convention) (numbers : Bool)
    (hpattern : c.setting .component "pattern" c.pattern = .ok (.str (k.patternWith numbers)))
    (context : FixContext) (n : Node) (result : List Finding × List Fix)
    (hinspect : c.inspect (some context) n = .ok result) (fix : Fix) (hfix : fix ∈ result.2) :
    ∃ t refs, c.suggest .component (nameOf n) = .ok (some t) ∧ RenamesTo context n (nameOf n) t refs fix ∧
      (c.validate .component (.str t) = .ok [] ↔ c.Skips .component (.str t) ∨ c.LetsThrough .component (.str t) ∧
        ∃ u, c.adjust .component (.str t) = .ok (.str u) ∧ k.Follows numbers u) ∧
      (∀ s, nameOf n = .str s → c.writingConvention .component = .ok (.str k.name) →
        (∀ a ∈ c.abbreviations, ∃ w, a = .str w) → Naming.isPlainName s = true →
        k.Suits numbers c.abbreviationTexts t →
        (c.validate .component (.str t) = .ok [] ↔ c.Skips .component (.str t) ∨ c.LetsThrough .component (.str t))) ∧
      ∀ again m, m.kind = .component → nameOf m = .str t →
        (c.inspect again m = .ok ([], []) ↔ c.validate .component (.str t) = .ok []) := by
  have hmade := madeFor_of_inspect hinspect hfix
  obtain ⟨t, refs, hsuggest, hrenames⟩ := hmade.renamesTo
  have hright : c.validate .component (.str t) = .ok [] ↔
      c.Skips .component (.str t) ∨ c.LetsThrough .component (.str t) ∧
        ∃ u, c.adjust .component (.str t) = .ok (.str u) ∧ k.Follows numbers u := by
    rw [validate_eq_nil_iff, validateForm_eq_nil_iff hpattern]
    rfl
  refine ⟨t, refs, hsuggest, hrenames, hright, fun s hs hwriting habbreviations hplain hsuits => ?_,
    fun again m hkind hname => ?_⟩
  · rw [hs, suggest_eq hwriting] at hsuggest
    cases hsuggest
    rw [hright]
    refine or_congr_right (and_iff_left ⟨_, adjust_eq_str hwriting habbreviations _, .inl ?_⟩)
    exact Convention.isForm_adjust hplain hsuits fun a ha => mem_abbreviationTexts ha
  · obtain ⟨severity, hseverity⟩ := exists_setting hpattern "severity" (.str c.scope.severity.name)
    have htrue : (nameOf m).isTrue = true := by
      simpa [hname, Json.isTrue] using hrenames.new_ne_nil
    rw [inspect_eq_nil_iff hkind htrue hseverity, hname]

/-- The rule for the names of components with a convention and some abbreviations. -/
def writing (k : Convention) (abbreviations : List Text) : Config :=
  { shortening abbreviations with
    convention := .str k.name, pattern := .str k.pattern, description := k.description }

/-- A component that stands alone, and what is known of its view. -/
def lone (name : Text) : Node := ⟨name, .component (.str name) .null .null⟩

def around (name : Text) : FixContext := ⟨[], { names := [(.str name, [.str "meta", .str "name"])] }⟩

/-- An abbreviation that does not stand at the start. -/
theorem renamed_passes_iff_key_api : ∃ result fix refs,
    (writing .camel ["API"]).inspect (some (around "key-api")) (lone "key-api") = .ok result ∧ fix ∈ result.2 ∧
      RenamesTo (around "key-api") (lone "key-api") (.str "key-api") "keyAPI" refs fix ∧
      (writing .camel ["API"]).validate .component (.str "keyAPI") = .ok [] := by
  obtain ⟨result, hinspect, hlength⟩ : ∃ r, (writing .camel ["API"]).inspect (some (around "key-api"))
      (lone "key-api") = .ok r ∧ r.2.length = 1 := by decide +kernel
  obtain ⟨fix, hfixes⟩ := List.length_eq_one_iff.mp hlength
  have hfix : fix ∈ result.2 := hfixes ▸ List.mem_singleton.mpr rfl
  have hwriting : (writing .camel ["API"]).writingConvention .component = .ok (.str Convention.camel.name) := rfl
  obtain ⟨t, refs, hsuggest, hrenames, -, hsettled, -⟩ :=
    renamed_passes_iff (writing .camel ["API"]) .camel true rfl (around "key-api") (lone "key-api") result hinspect
      fix hfix
  have hconvert : Convention.camel.convert ["API"] "key-api" = "keyAPI" := by decide +kernel
  obtain rfl : t = "keyAPI" := by
    have h := (suggest_eq hwriting "key-api").symm.trans hsuggest
    exact (Option.some.inj (Except.ok.inj h)).symm.trans hconvert
  refine ⟨result, fix, refs, hinspect, hfix, hrenames, ?_⟩
  have hsuits : Convention.camel.Suits true ["API"] "keyAPI" := ⟨by decide, by decide +kernel, nofun⟩
  refine (hsettled "key-api" rfl hwriting (by simp [writing, shortening]) (by decide) hsuits).mpr (.inr ?_)
  exact ⟨⟨_, rfl, rfl⟩, ⟨_, rfl, rfl⟩, _, _, _, rfl, rfl, rfl, rfl, nofun⟩

/-- An abbreviation at the start of a camel-case name. -/
theorem not_renamed_passes_api_key : ∃ result fix t refs,
    (writing .camel ["API"]).inspect (some (around "api-key")) (lone "api-key") = .ok result ∧ fix ∈ result.2 ∧
      RenamesTo (around "api-key") (lone "api-key") (.str "api-key") t refs fix ∧
      (writing .camel ["API"]).validate .component (.str t) ≠ .ok [] := by
  obtain ⟨result, hinspect, hlength⟩ : ∃ r, (writing .camel ["API"]).inspect (some (around "api-key"))
      (lone "api-key") = .ok r ∧ r.2.length = 1 := by decide +kernel
  obtain ⟨fix, hfixes⟩ := List.length_eq_one_iff.mp hlength
  have hfix : fix ∈ result.2 := hfixes ▸ List.mem_singleton.mpr rfl
  obtain ⟨t, refs, hsuggest, hrenames⟩ := (madeFor_of_inspect hinspect hfix).renamesTo
  have hconvert : Convention.camel.convert ["API"] "api-key" = "APIKey" := by decide +kernel
  have hwriting : (writing .camel ["API"]).writingConvention .component = .ok (.str Convention.camel.name) := rfl
  obtain rfl : t = "APIKey" :=
    (Option.some.inj (Except.ok.inj ((suggest_eq hwriting "api-key").symm.trans hsuggest))).symm.trans hconvert
  exact ⟨result, fix, _, refs, hinspect, hfix, hrenames, by decide +kernel⟩

end ViewLint.NamePattern.Config
