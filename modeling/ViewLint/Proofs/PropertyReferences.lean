import Mathlib.Data.List.TakeWhile
import ViewLint.Proofs.Matching
import ViewLint.Proofs.Occurrences
import ViewLint.Rule.UnusedProperty

/-!
# References to a property of the view

A property of the view has the full name `view.custom.x`. Whatever refers to it by a text holds this name as a part,
and a path defines or owns it only if it is `custom.x`, unless the path itself leads through `view.custom.`.

* `Text.infix_dropIndices`: a word without brackets and digits stays in a path whose indices are dropped.
* `UnusedProperty.of_spelled?`: references by a text.
* `UnusedProperty.definition?_eq_viewName_iff`, `ownerOf?_eq_viewName_iff`: definitions and owners.
-/

namespace ViewLint

open List Option Text

namespace Text

variable {a s mark name w t : Text} {stop c : CodePoint} {used : Nat}

/-! ## Texts without their indices -/

/-- Whether a code point is part of no index. -/
def isOutside (c : CodePoint) : Bool := c != .char '[' && c != .char ']' && !isDigit c

theorem bracketed?_append_stop (hstop : isOutside stop = true) (a s : Text) :
    bracketed? (a ++ stop :: s) = (bracketed? a).map fun p => (p.1, p.2 ++ stop :: s) := by
  ext ⟨digits, rest⟩
  simp only [map_eq_some_iff, Prod.exists, Prod.mk.injEq, bracketed?_eq_some_iff]
  constructor
  · rintro ⟨heq, hne, hdigits⟩
    have hindex : stop ∉ CodePoint.char '[' :: (digits ++ [.char ']']) := by
      intro hmem
      obtain rfl | hmem := mem_cons.mp hmem
      · cases hstop
      · obtain hmem | hmem := mem_append.mp hmem
        · simp [isOutside, hdigits stop hmem] at hstop
        · rw [mem_singleton.mp hmem] at hstop
          cases hstop
    have hsplit : a ++ stop :: s = .char '[' :: (digits ++ [.char ']']) ++ rest := by simpa using heq
    obtain ⟨more, hmore, hrest⟩ | ⟨rest', rfl, rfl⟩ := append_eq_append_iff.mp hsplit
    · cases more with
      | nil => exact ⟨digits, [], ⟨by simpa using hmore.symm, hne, hdigits⟩, rfl, hrest⟩
      | cons c more => exact absurd (by rw [hmore, (cons.inj hrest).1]; simp) hindex
    · exact ⟨digits, rest', ⟨by simp, hne, hdigits⟩, rfl, rfl⟩
  · rintro ⟨_, rest, ⟨rfl, hne, hdigits⟩, rfl, rfl⟩
    exact ⟨by simp, hne, hdigits⟩

theorem dropIndices_append_stop (hstop : isOutside stop = true) (a s : Text) :
    dropIndices (a ++ stop :: s) = dropIndices a ++ stop :: dropIndices s := by
  have hfrom (skip : Nat) (hskip : skip ≤ a.length) :
      dropIndicesFrom skip (a ++ stop :: s) = dropIndicesFrom skip a ++ stop :: dropIndices s := by
    induction a generalizing skip with
    | nil =>
      obtain rfl : skip = 0 := Nat.le_zero.mp hskip
      have hnone : bracketed? (stop :: s) = none := bracketed?_append_stop hstop [] s
      simp [dropIndicesFrom, hnone, dropIndices]
    | cons c a ih =>
      cases skip with
      | succ skip => exact ih skip (Nat.le_of_succ_le_succ hskip)
      | zero =>
        rw [cons_append, dropIndicesFrom, dropIndicesFrom, ← cons_append, bracketed?_append_stop hstop]
        cases hindex : bracketed? (c :: a) with
        | none => exact congrArg (c :: ·) (ih 0 (Nat.zero_le _))
        | some p =>
          obtain ⟨heq, -, -⟩ := bracketed?_eq_some_iff.mp hindex
          have hlength := congrArg length heq
          simp only [length_cons, length_append] at hlength
          exact ih _ (by omega)
  exact hfrom 0 (Nat.zero_le _)

theorem mem_of_mem_dropIndices (h : c ∈ dropIndices s) : c ∈ s := by
  rw [dropIndices] at h
  generalize 0 = skip at h
  induction s generalizing skip with
  | nil => cases h
  | cons d s ih =>
    cases skip with
    | succ skip => exact mem_cons_of_mem _ (ih skip h)
    | zero =>
      rw [dropIndicesFrom] at h
      split at h
      · exact mem_cons_of_mem _ (ih _ h)
      · exact mem_cons.mpr ((mem_cons.mp h).imp_right (ih 0))

theorem dropIndices_word_append (hw : ∀ c ∈ w, isOutside c = true) (b : Text) :
    dropIndices (w ++ b) = w ++ dropIndices b := by
  induction w with
  | nil => rfl
  | cons c w ih =>
    obtain ⟨hc, hw⟩ := forall_mem_cons.mp hw
    have hstop := dropIndices_append_stop hc [] (w ++ b)
    rw [ih hw] at hstop
    exact hstop

/-- A word outside of indices stays. -/
theorem infix_dropIndices (hw : ∀ c ∈ w, isOutside c = true) (h : w <:+: s) : w <:+: dropIndices s := by
  obtain ⟨a, b, rfl⟩ := h
  cases w with
  | nil => exact nil_infix
  | cons c w =>
    obtain ⟨hc, hw⟩ := forall_mem_cons.mp hw
    rw [append_assoc, cons_append, dropIndices_append_stop hc, dropIndices_word_append hw]
    exact ⟨dropIndices a, dropIndices b, by simp⟩

theorem low_line_of_dropLastIndex (h : ("_" : Text) <+: dropLastIndex t) : ("_" : Text) <+: dropIndices t := by
  cases t with
  | nil => exact absurd h (by decide)
  | cons c r =>
    rw [dropLastIndex] at h
    split at h
    · exact absurd h (by decide)
    · exact absurd h (by decide)
    · obtain rfl : CodePoint.char '_' = c := (cons_prefix_cons.mp h).1
      exact ⟨dropIndices r, (dropIndices_append_stop (by decide) [] r).symm⟩

/-! ## Finds -/

section First

variable {α : Type} {step : Text → Option α} {find : α}

theorem first?_of_some (hs : s ≠ []) (h : step s = some find) : first? step s = some find := by
  cases s with
  | nil => exact absurd rfl hs
  | cons c r => rw [first?, h]

theorem exists_of_first? (h : first? step s = some find) :
    ∃ t, t <:+ s ∧ step t = some find := by
  induction s with
  | nil => cases h
  | cons c r ih =>
    rw [first?] at h
    cases hstep : step (c :: r) with
    | some found =>
      rw [hstep] at h
      cases h
      exact ⟨c :: r, suffix_rfl, hstep⟩
    | none =>
      rw [hstep] at h
      obtain ⟨t, ht, hfind⟩ := ih h
      exact ⟨t, ht.trans (suffix_cons c r), hfind⟩

end First

theorem after?_append (mark s : Text) : after? mark (mark ++ s) = some s := by
  rw [after?, if_pos ( isPrefixOf_iff_prefix.mpr (prefix_append mark s)), drop_left]

theorem append_prefix_of_after? {body : Text} (h : after? mark s = some body) (hname : name <+: body) :
    mark ++ name <+: s := by
  rw [after?, ite_none_right_eq_some] at h
  obtain ⟨hmark, h⟩ := h
  obtain ⟨t, rfl⟩ := isPrefixOf_iff_prefix.mp hmark
  rw [some.injEq, drop_left] at h
  rw [prefix_append_right_inj, h]
  exact hname

theorem prefix_of_ident? (h : ident? s = some name) : name <+: s := by
  cases s with
  | nil => cases h
  | cons c r =>
    rw [ident?, ite_none_right_eq_some, some.injEq] at h
    rw [← h.2]
    exact cons_prefix_cons.mpr ⟨rfl, takeWhile_prefix _⟩

theorem prefix_of_identAfter? (h : identAfter? mark s = some (name, used)) : mark ++ name <+: s := by
  obtain ⟨body, hbody, h⟩ := bind_eq_some_iff.mp h
  obtain ⟨name', hname, h⟩ := bind_eq_some_iff.mp h
  cases h
  exact append_prefix_of_after? hbody (prefix_of_ident? hname)

theorem prefix_of_enclosed? (h : enclosed? mark stop s = some (name, used)) : mark ++ name <+: s := by
  obtain ⟨body, hbody, h⟩ := bind_eq_some_iff.mp h
  simp only at h
  split at h
  · cases h
  · cases h
    exact append_prefix_of_after? hbody ( takeWhile_prefix _)

/-! ## Parts of a text -/

theorem holds_stop_iff : holds s [stop] = true ↔ stop ∈ s := by
  rw [holds_iff_isInfix, singleton_infix_iff]

theorem exists_before {needle : Text} (h : holds s needle = true) : ∃ r, s = before needle s ++ needle ++ r := by
  obtain ⟨⟨a, b⟩, hcut⟩ := isSome_iff_exists.mp h
  rw [before, hcut]
  exact ⟨b, cut?_eq_some hcut⟩

theorem afterLast_suffix (sep s : Text) : afterLast sep s <:+ s := by
  rw [afterLast]
  cases hcut : rcut? sep s with
  | none => exact suffix_rfl
  | some p => exact ⟨p.1 ++ sep, (rcut?_eq_some hcut).symm⟩

theorem afterLast_append_stop (a : Text) (ht : stop ∉ t) : afterLast [stop] (a ++ stop :: t) = t := by
  rw [afterLast, rcut?_stop stop a ht]
  rfl

theorem exists_last (h : stop ∈ s) : ∃ a b, s = a ++ stop :: b ∧ stop ∉ b := by
  obtain ⟨b, a, hs, hb⟩ := eq_append_cons_of_mem (mem_reverse.mpr h)
  refine ⟨a.reverse, b.reverse, ?_, by simpa using hb⟩
  rw [← reverse_reverse s, hs]
  simp

/-- A stop that stands only once parts a text in one way. -/
theorem eq_of_only_stop {b r : Text} (hb : stop ∉ b) (hs : stop ∉ s) (h : a ++ stop :: r = b ++ stop :: s) : a = b := by
  have hcount := congrArg (count stop) h
  simp [count_eq_zero.mpr hb, count_eq_zero.mpr hs] at hcount
  exact (append_cons_inj (count_eq_zero.mp (by omega)) hb h).1

/-- The last stop of a text is in all that follows another stop, or is that stop. -/
theorem stop_suffix {x r : Text} (hx : stop ∉ x) (h : stop :: x <:+ a ++ stop :: r) : stop :: x <:+ stop :: r := by
  obtain h | h := suffix_or_suffix_of_suffix h (suffix_append a _)
  · exact h
  · obtain h | h := suffix_cons_iff.mp h
    · exact h ▸ suffix_rfl
    · exact absurd (h.subset mem_cons_self) hx

/-- The last cut at a word that ends in a stop, where no stop follows. -/
theorem rcut?_word {b : Text} (hb : stop ∉ b) (a : Text) :
    rcut? (w ++ [stop]) (a ++ (w ++ [stop]) ++ b) = some (a, b) := by
  obtain ⟨⟨x, y⟩, hcut⟩ := isSome_iff_exists.mp (rcut?_isSome (w ++ [stop]) a b)
  have heq : a ++ w ++ stop :: b = x ++ w ++ stop :: y := by simpa using rcut?_eq_some hcut
  have hle := length_le_of_rcut? hcut rfl
  have hlength := congrArg length heq
  simp only [length_append, length_cons] at hlength
  have hsuffix (front rest : Text) : rest <:+ front ++ stop :: rest := (suffix_cons stop rest).trans
    (suffix_append front _)
  have hy : y <:+ b := suffix_of_suffix_length_le (hsuffix _ y) (heq ▸ hsuffix _ b) (by omega)
  obtain ⟨hfront, rfl⟩ := append_cons_inj_right hb (fun h => hb (hy.subset h)) heq
  rw [hcut, append_cancel_right hfront]

theorem ident_of_identAfter? (h : identAfter? mark s = some (name, used)) : ident? name = some name := by
  obtain ⟨body, hbody, h⟩ := bind_eq_some_iff.mp h
  obtain ⟨name', hname, h⟩ := bind_eq_some_iff.mp h
  cases h
  cases body with
  | nil => cases hname
  | cons c r =>
    rw [ident?, ite_none_right_eq_some, some.injEq] at hname
    rw [← hname.2, ident?, if_pos hname.1, takeWhile_takeWhile]
    simp

theorem not_mem_of_ident? (h : ident? name = some name) (hc : isIdent c = false) : c ∉ name := by
  cases name with
  | nil => exact not_mem_nil
  | cons d r =>
    rw [ident?, ite_none_right_eq_some, some.injEq, cons.injEq, takeWhile_eq_self_iff] at h
    intro hmem
    obtain rfl | hmem := mem_cons.mp hmem
    · simp [isIdent, h.1] at hc
    · rw [h.2.2 c hmem] at hc
      cases hc

end Text

namespace UnusedProperty

/-! ## References by a text -/

/-- A name of letters, digits and low lines that starts with a letter. -/
def IsPlainName (name : Text) : Prop := (∃ c ∈ name.head?, Text.isLetter c = true) ∧ ∀ c ∈ name, Text.isIdent c = true

instance (name : Text) : Decidable (IsPlainName name) :=
  inferInstanceAs (Decidable ((∃ c ∈ name.head?, isLetter c = true) ∧ ∀ c ∈ name, isIdent c = true))

/-- A full name without the mark of an open component. -/
def stem (full : Text) : Text := (Text.after? "*" full).getD full

/-- The full name of a custom property of the view. -/
abbrev viewName (name : Text) : Text := "view.custom." ++ name

/-- The properties that a view itself has: custom ones and parameters. -/
inductive Level where
  | custom
  | params

namespace Level

def start : Level → Text
  | custom => "custom."
  | params => "params."

/-- How the full names of its properties start. -/
def viewStart : Level → Text
  | custom => "view.custom."
  | params => "view.params."

theorem exists_start (l : Level) : ∃ front, l.start = front ++ [.char '.'] ∧ .char '.' ∉ front := by
  cases l with
  | custom => exact ⟨"custom", by decide⟩
  | params => exact ⟨"params", by decide⟩

end Level

variable {full text mark start name path : Text}

theorem stem_append (hstart : start ≠ []) (name : Text) : stem (start ++ name) = stem start ++ name := by
  cases start with
  | nil => exact absurd rfl hstart
  | cons c start =>
    simp only [stem, after?, ofString, cons_append]
    by_cases hc : c = .char '*'
    · simp [hc]
    · simp [isPrefixOf, Ne.symm hc]

theorem stem_suffix (full : Text) : stem full <:+ full := by
  rw [stem, after?]
  split
  · exact drop_suffix _ full
  · exact suffix_rfl

/-- What follows a mark is referred to by the end of the mark, if the full name starts so. -/
theorem infix_of_mark (hstart : start ≠ []) (hmark : stem start <:+ mark) (h : mark ++ name <:+: text) :
    stem (start ++ name) <:+: text := by
  obtain ⟨front, rfl⟩ := hmark
  rw [append_assoc, ← stem_append hstart] at h
  exact (suffix_append front _).isInfix.trans h

theorem infix_of_mem_marked {marks : List (Text × Text)} {step : Text → Text → Option (Text × Nat)}
    (hstep : ∀ {mark s inner : Text} {used : Nat}, step mark s = some (inner, used) → mark ++ inner <+: s)
    (hmarks : ∀ m ∈ marks, m.2 ≠ [] ∧ stem m.2 <:+ m.1)
    (h : full ∈ marks.flatMap fun m => (scan (step m.1) text).map (m.2 ++ ·)) : stem full <:+: text := by
  obtain ⟨m, hm, h⟩ := mem_flatMap.mp h
  obtain ⟨inner, hinner, rfl⟩ := mem_map.mp h
  obtain ⟨t, used, ht, hfind⟩ := exists_of_mem_scan hinner
  exact infix_of_mark (hmarks m hm).1 (hmarks m hm).2 ((hstep hfind).isInfix.trans ht.isInfix)

theorem of_firstIdent? (h : firstIdent? mark text = some name) :
    ident? name = some name ∧ mark ++ name <:+: text := by
  obtain ⟨⟨name', used⟩, hfirst, rfl⟩ := map_eq_some_iff.mp h
  obtain ⟨t, ht, hident⟩ := exists_of_first? hfirst
  exact ⟨ident_of_identAfter? hident, (prefix_of_identAfter? hident).isInfix.trans ht.isInfix⟩

theorem of_firstCustom? {component : Text} (h : firstCustom? text = some (component, name)) :
    ident? name = some name ∧ (component ++ ".custom." ++ name : Text) <:+: text := by
  obtain ⟨t, ht, hstep⟩ := exists_of_first? h
  simp only [ite_none_left_eq_some] at hstep
  obtain ⟨⟨name', used⟩, hident, hpair⟩ := map_eq_some_iff.mp hstep.2
  cases hpair
  refine ⟨ident_of_identAfter? hident, IsInfix.trans (IsPrefix.isInfix ?_) ht.isInfix⟩
  obtain ⟨r, hr⟩ := prefix_of_identAfter? hident
  have hsplit := prefix_iff_eq_append.mp ( takeWhile_prefix (fun c => c != CodePoint.char '.') (l := t))
  rw [← hr] at hsplit
  exact ⟨r, by simpa only [append_assoc] using hsplit⟩

/-- What a spelling refers to ends in an identifier and stands in it. -/
theorem of_spelled? (h : spelled? text = some full) : ∃ start name, full = start ++ name ∧
    ident? name = some name ∧ stem full <:+: text ∧
      ((".custom." : Text) <:+ start ∨ start = Level.params.viewStart) := by
  have hident {mark start : Text} (hstart : start ≠ [] ∧ stem start <:+ mark)
      (hkind : (".custom." : Text) <:+ start ∨ start = Level.params.viewStart)
      (h : (firstIdent? mark text).map (start ++ ·) = some full) : ∃ start name, full = start ++ name ∧
        ident? name = some name ∧ stem full <:+: text ∧
          ((".custom." : Text) <:+ start ∨ start = Level.params.viewStart) := by
    obtain ⟨name, hname, rfl⟩ := map_eq_some_iff.mp h
    obtain ⟨hident, hin⟩ := of_firstIdent? hname
    exact ⟨start, name, rfl, hident, infix_of_mark hstart.1 hstart.2 hin, hkind⟩
  rw [spelled?] at h
  repeat' split at h
  · exact hident (by decide) (.inl (by decide)) h
  · exact hident (by decide) (.inr rfl) h
  · exact hident (by decide) (.inl (by decide)) h
  · obtain ⟨⟨component, name⟩, hfirst, rfl⟩ := map_eq_some_iff.mp h
    obtain ⟨hname, hin⟩ := of_firstCustom? hfirst
    exact ⟨_, name, rfl, hname, (stem_suffix _).isInfix.trans hin, .inl (suffix_append component _)⟩
  · cases h

theorem IsPlainName.ident?_eq (hname : IsPlainName name) : ident? name = some name := by
  obtain ⟨⟨c, hc, hletter⟩, hall⟩ := hname
  cases name with
  | nil => cases hc
  | cons d r =>
    obtain rfl := some.inj hc
    have hr : r.takeWhile isIdent = r := takeWhile_eq_self_iff.mpr (forall_mem_cons.mp hall).2
    rw [ident?, if_pos (by simp [startsIdent, hletter]), hr]

theorem IsPlainName.not_mem (hname : IsPlainName name) {c : CodePoint} (hc : isIdent c = false) : c ∉ name :=
  not_mem_of_ident? hname.ident?_eq hc

theorem spelled?_viewStart (l : Level) (hname : ident? name = some name) :
    spelled? (l.viewStart ++ name) = some (l.viewStart ++ name) := by
  have hdot : .char '.' ∉ name := not_mem_of_ident? hname (by decide)
  have hident : identAfter? l.viewStart (l.viewStart ++ name) = some (name, l.viewStart.length + name.length) := by
    rw [identAfter?, after?_append, bind_eq_bind, bind_some, hname]
    rfl
  have hfirst : firstIdent? l.viewStart (l.viewStart ++ name) = some name := by
    rw [firstIdent?, first?_of_some (by cases l <;> simp [Level.viewStart, ofString]) hident]
    rfl
  have hholds : holds (l.viewStart ++ name) l.viewStart = true :=
    holds_iff_isInfix.mpr (prefix_append _ name).isInfix
  rw [spelled?]
  cases l with
  | custom => exact (if_pos hholds).trans (congrArg (Option.map _) hfirst)
  | params =>
    have hcustom : ¬ ("view.custom." : Text) <:+: Level.params.viewStart ++ name :=
      fun h => absurd ((infix_append_free (u := ofString "view.custom") hdot).mp h) (by decide)
    rw [if_neg (mt holds_iff_isInfix.mp hcustom)]
    exact (if_pos hholds).trans (congrArg (Option.map _) hfirst)

/-! ## Definitions and owners -/

theorem singleStep?_eq_some_iff : singleStep? start path = some name ↔ path = start ++ name ∧ .char '.' ∉ name := by
  have hdot (s : Text) : (!holds s ".") = true ↔ .char '.' ∉ s := by
    rw [Bool.not_eq_true', Bool.eq_false_iff, not_iff_not]
    exact holds_stop_iff
  rw [singleStep?]
  simp only [ite_none_right_eq_some, Bool.and_eq_true, hdot, some.injEq]
  constructor
  · rintro ⟨⟨hstart, hstop⟩, rfl⟩
    exact ⟨(prefix_iff_eq_append.mp ( isPrefixOf_iff_prefix.mp hstart)).symm, hstop⟩
  · rintro ⟨rfl, hstop⟩
    rw [drop_left]
    exact ⟨⟨ isPrefixOf_iff_prefix.mpr (prefix_append start name), hstop⟩, rfl⟩

/-- The full name of a property of the view, by its path. -/
def viewStep? (path : Text) : Option Text :=
  ((singleStep? "custom." path).map (ofString "view.custom." ++ ·)).or
    ((singleStep? "params." path).map (ofString "view.params." ++ ·))

theorem viewStep?_eq_some_iff : viewStep? path = some full ↔
    ∃ (l : Level) (name : Text), .char '.' ∉ name ∧ path = l.start ++ name ∧ full = l.viewStart ++ name := by
  rw [viewStep?, or_eq_some_iff]
  simp only [map_eq_some_iff, map_eq_none_iff, singleStep?_eq_some_iff]
  constructor
  · rintro (⟨name, ⟨rfl, hname⟩, rfl⟩ | ⟨-, name, ⟨rfl, hname⟩, rfl⟩)
    · exact ⟨.custom, name, hname, rfl, rfl⟩
    · exact ⟨.params, name, hname, rfl, rfl⟩
  · rintro ⟨l, name, hname, rfl, rfl⟩
    cases l with
    | custom => exact .inl ⟨name, ⟨rfl, hname⟩, rfl⟩
    | params =>
      refine .inr ⟨eq_none_iff_forall_not_mem.mpr fun step hstep => ?_, name, ⟨rfl, hname⟩, rfl⟩
      have hpath := (singleStep?_eq_some_iff.mp hstep).1
      exact absurd (cons.inj hpath).1 (by decide)

theorem rcut?_custom (hname : .char '.' ∉ name) (a : Text) :
    rcut? ".custom." (a ++ ".custom." ++ name) = some (a, name) :=
  rcut?_word (w := ofString ".custom") hname a

theorem customStep?_eq_some_iff : customStep? path = some name ↔
    name ≠ [] ∧ .char '.' ∉ name ∧ ∃ a, path = a ++ ".custom." ++ name := by
  have htest (step : Text) : (step.isEmpty || holds step ".") = true ↔ ¬ (step ≠ [] ∧ .char '.' ∉ step) := by
    rw [Bool.or_eq_true, List.isEmpty_iff, not_and_or, not_not, not_not]
    exact or_congr_right holds_stop_iff
  rw [customStep?, bind_eq_bind, bind_eq_some_iff]
  simp only [Prod.exists, ite_none_left_eq_some, htest, not_not, some.injEq]
  constructor
  · rintro ⟨a, step, hcut, hstep, rfl⟩
    exact ⟨hstep.1, hstep.2, a, rcut?_eq_some hcut⟩
  · rintro ⟨hne, hdot, a, rfl⟩
    exact ⟨a, name, rcut?_custom hdot a, ⟨hne, hdot⟩, rfl⟩

theorem viewStep?_eq_viewName_iff (hname : .char '.' ∉ name) :
    viewStep? path = some (viewName name) ↔ path = "custom." ++ name := by
  rw [viewStep?_eq_some_iff]
  constructor
  · rintro ⟨l, step, -, rfl, h⟩
    cases l with
    | custom => rw [← append_cancel_left h]; rfl
    | params =>
      have hlength : (ofString "view.custom.").length = Level.params.viewStart.length := by decide
      exact absurd (append_inj_left h hlength) (by decide)
  · rintro rfl
    exact ⟨.custom, name, hname, rfl, rfl⟩

theorem infix_withoutBinding (path : Text) : withoutBinding path <:+: path := by
  have hrest : (if startsWith path "propConfig." then path.drop 11 else path) <:+: path := by
    split
    · exact (drop_suffix 11 path).isInfix
    · exact infix_rfl
  simp only [withoutBinding]
  generalize (if startsWith path "propConfig." then path.drop 11 else path) = rest at hrest
  split
  · next ending hfind =>
    obtain ⟨r, hr⟩ := exists_before (find?_some hfind)
    exact IsInfix.trans ⟨[], ending ++ r, (hr.trans (append_assoc ..)).symm⟩ hrest
  · exact hrest

/-- The last step of a text is one. -/
theorem last_unique {ident : Text} (hname : .char '.' ∉ name) (hident : .char '.' ∉ ident)
    (h : .char '.' :: name <:+ text) (h' : .char '.' :: ident <:+ text) : name = ident := by
  obtain ⟨front, rfl⟩ := h'
  exact (suffix_append_stop_iff hname hident).mp h

theorem last_append (hstart : ("." : Text) <:+ start) (name : Text) : .char '.' :: name <:+ start ++ name := by
  obtain ⟨front, rfl⟩ := hstart
  exact ⟨front, by simp [ofString]⟩

theorem last_custom (a name : Text) : .char '.' :: name <:+ a ++ ".custom." ++ name :=
  last_append ((by decide : ("." : Text) <:+ ofString ".custom.").trans (suffix_append _ _)) name

theorem Level.last_start (l : Level) (name : Text) : .char '.' :: name <:+ l.start ++ name :=
  last_append (by cases l <;> decide) name

theorem Level.last_viewStart (l : Level) (name : Text) : .char '.' :: name <:+ l.viewStart ++ name :=
  last_append (by cases l <;> decide) name

theorem definition?_eq (path : Text) : definition? path = (viewStep? path).or
    (if startsWith path "propConfig." then none
      else (customStep? path).map (afterLast "." (before ".custom." path) ++ ".custom." ++ ·)) := by
  rw [definition?, viewStep?]
  cases singleStep? "custom." path <;> cases singleStep? "params." path <;> rfl

theorem ownerOf?_eq (path : Text) : ownerOf? path = (viewStep? (withoutBinding path)).or
    (customStep? (withoutBinding path) >>= fun name =>
      let component := afterLast "." (beforeLast ".custom." (withoutBinding path))
      if component.isEmpty then none else some (component ++ ".custom." ++ name)) := by
  rw [ownerOf?, viewStep?]
  cases singleStep? "custom." (withoutBinding path) <;> cases singleStep? "params." (withoutBinding path) <;> rfl

/-- A definition keeps the last step of the path. -/
theorem last_of_definition? (h : definition? path = some full) :
    ∃ name, .char '.' ∉ name ∧ .char '.' :: name <:+ full ∧ .char '.' :: name <:+ path := by
  rw [definition?_eq, or_eq_some_iff] at h
  obtain h | ⟨-, h⟩ := h
  · obtain ⟨l, name, hname, rfl, rfl⟩ := viewStep?_eq_some_iff.mp h
    exact ⟨name, hname, l.last_viewStart name, l.last_start name⟩
  · obtain ⟨-, h⟩ := ite_none_left_eq_some.mp h
    obtain ⟨name, hname, rfl⟩ := map_eq_some_iff.mp h
    obtain ⟨-, hdot, a, rfl⟩ := customStep?_eq_some_iff.mp hname
    exact ⟨name, hdot, last_custom _ name, last_custom a name⟩

/-- So does the owner of a binding. -/
theorem last_of_ownerOf? (h : ownerOf? path = some full) :
    ∃ name, .char '.' ∉ name ∧ .char '.' :: name <:+ full ∧ name <:+: path := by
  have hpath {name : Text} (hname : .char '.' :: name <:+ withoutBinding path) : name <:+: path :=
    ((suffix_cons _ _).trans hname).isInfix.trans (infix_withoutBinding path)
  rw [ownerOf?_eq, or_eq_some_iff] at h
  obtain h | ⟨-, h⟩ := h
  · obtain ⟨l, name, hname, hstart, rfl⟩ := viewStep?_eq_some_iff.mp h
    exact ⟨name, hname, l.last_viewStart name, hpath (hstart ▸ l.last_start name)⟩
  · obtain ⟨name, hname, h⟩ := bind_eq_some_iff.mp h
    obtain ⟨-, hdot, a, ha⟩ := customStep?_eq_some_iff.mp hname
    simp only [ite_none_left_eq_some, some.injEq] at h
    rw [← h.2]
    exact ⟨name, hdot, last_custom _ name, hpath (ha ▸ last_custom a name)⟩

section Path

variable (hpath : ¬ ("view.custom." : Text) <:+: path) (hname : .char '.' ∉ name)

include hpath hname

/-- The full name of a property of a component is another one, unless a path leads through the view. -/
theorem componentName_ne_viewName {a r step : Text} (ha : path = a ++ ".custom." ++ r) (hstep : .char '.' ∉ step) :
    afterLast "." a ++ ".custom." ++ step ≠ viewName name := by
  intro h
  have hsplit : afterLast "." a ++ ".custom" ++ .char '.' :: step = ofString "view.custom" ++ .char '.' :: name := by
    simpa [viewName, ofString] using h
  obtain ⟨hcomponent, -⟩ := append_cons_inj_right hstep hname hsplit
  have hview : afterLast "." a = "view" := by
    exact append_cancel_right (hcomponent : _ = ofString "view" ++ ofString ".custom")
  obtain ⟨front, hfront⟩ := afterLast_suffix "." a
  refine hpath ⟨front, r, ?_⟩
  rw [ha, ← hfront, hview]
  simp [ofString]

theorem definition?_eq_viewName_iff : definition? path = some (viewName name) ↔ path = "custom." ++ name := by
  rw [definition?_eq, or_eq_some_iff, viewStep?_eq_viewName_iff hname, or_iff_left_iff_imp]
  rintro ⟨-, h⟩
  obtain ⟨-, h⟩ := ite_none_left_eq_some.mp h
  obtain ⟨step, hstep, h⟩ := map_eq_some_iff.mp h
  obtain ⟨-, hdot, a, ha⟩ := customStep?_eq_some_iff.mp hstep
  obtain ⟨r, hr⟩ := exists_before (holds_iff_isInfix.mpr ⟨a, step, ha.symm⟩)
  exact absurd h (componentName_ne_viewName hpath hname hr hdot)

omit hpath in
theorem ownerOf?_eq_viewName_iff {bindingPath : Text} (hpath : ¬ ("view.custom." : Text) <:+: bindingPath) :
    ownerOf? bindingPath = some (viewName name) ↔ withoutBinding bindingPath = "custom." ++ name := by
  have hpath : ¬ ("view.custom." : Text) <:+: withoutBinding bindingPath :=
    fun h => hpath (h.trans (infix_withoutBinding _))
  rw [ownerOf?_eq, or_eq_some_iff, viewStep?_eq_viewName_iff hname, or_iff_left_iff_imp]
  rintro ⟨-, h⟩
  obtain ⟨step, hstep, h⟩ := bind_eq_some_iff.mp h
  obtain ⟨-, hdot, a, ha⟩ := customStep?_eq_some_iff.mp hstep
  simp only [ite_none_left_eq_some, some.injEq] at h
  have hbefore : beforeLast ".custom." (withoutBinding bindingPath) = a := by
    rw [ha, beforeLast, rcut?_custom hdot]
    rfl
  rw [hbefore] at h
  exact absurd h.2 (componentName_ne_viewName hpath hname ha hdot)

end Path

end UnusedProperty

end ViewLint
