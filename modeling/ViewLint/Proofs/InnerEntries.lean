import ViewLint.Proofs.Component.Index

/-!
# The entries below a key

What stands below a key of an object has paths that go on with a dot after the key. A key may hold dots itself,
so that the entries of one field can look as if they stood below another one.

* `Flat.under`: the entries below a path, with what follows it.
* **`View.under_fields`**: what stands below a key is what the field there gives, if no key goes on with a dot
  after that word.
-/

namespace ViewLint

open View List Option Text Json Fields Flat

/-! ## The entries below a path -/

namespace Flat

def rest? (a path : Text) : Option Text :=
  if startsWith path (a ++ ".") then some (path.drop a.length) else none

theorem rest?_eq_some_iff {a path r : Text} : rest? a path = some r ↔ path = a ++ r ∧ ("." : Text) <+: r := by
  rw [rest?, ite_none_right_eq_some, startsWith, isPrefixOf_iff_prefix, some.injEq]
  constructor
  · rintro ⟨⟨s, rfl⟩, rfl⟩
    rw [append_assoc, drop_left]
    exact ⟨rfl, prefix_append _ s⟩
  · rintro ⟨rfl, hr⟩
    exact ⟨(prefix_append_right_inj a).mpr hr, drop_left⟩

theorem rest?_append (a b t : Text) : rest? (a ++ b) (a ++ t) = rest? b t := by
  ext r
  rw [rest?_eq_some_iff, rest?_eq_some_iff, append_assoc, append_right_inj]

theorem rest?_bind_rest? (a b path : Text) : (rest? a path).bind (rest? ("." ++ b)) = rest? (a ++ ("." ++ b)) path := by
  ext r
  rw [bind_eq_some_iff]
  simp only [rest?_eq_some_iff]
  constructor
  · rintro ⟨_, ⟨rfl, -⟩, rfl, hr⟩
    exact ⟨by simp, hr⟩
  · rintro ⟨rfl, hr⟩
    exact ⟨_, ⟨append_assoc .., by simp⟩, rfl, hr⟩

/-- The entries below a path, with what follows it. -/
def under (flat : Flat) (a : Text) : Flat := flat.filterMap fun e => (rest? a e.1).map (·, e.2)

theorem under_eq_nil_iff {flat : Flat} {a : Text} : under flat a = [] ↔ ∀ e ∈ flat, ∀ r, e.1 ≠ a ++ ("." ++ r) := by
  rw [under, filterMap_eq_nil_iff]
  refine forall₂_congr fun e _ => ?_
  rw [map_eq_none_iff, eq_none_iff_forall_ne_some]
  constructor
  · intro h r he
    exact h _ (rest?_eq_some_iff.mpr ⟨he, prefix_append _ r⟩)
  · intro h r hr
    obtain ⟨he, s, rfl⟩ := rest?_eq_some_iff.mp hr
    exact h s he

theorem under_flatMap {α : Type} (xs : List α) (f : α → Flat) (a : Text) :
    under (xs.flatMap f) a = xs.flatMap fun x => under (f x) a :=
  filterMap_flatMap

/-- Below a longer path stands the same, farther off. -/
theorem under_shift (a : Text) (es : Flat) (b : Text) : under (shift a es) (a ++ b) = under es b := by
  rw [under, under, shift, filterMap_map]
  refine filterMap_congr fun e _ => ?_
  rw [Function.comp_apply, rest?_append]

theorem under_shift_self {a : Text} {es : Flat} (h : ∀ e ∈ es, ("." : Text) <+: e.1) : under (shift a es) a = es := by
  have hshift := under_shift a es []
  rw [append_nil] at hshift
  rw [hshift, under]
  refine (filterMap_congr fun e he => ?_).trans filterMap_some
  rw [rest?_eq_some_iff.mpr ⟨(nil_append e.1).symm, h e he⟩]
  rfl

theorem under_under (flat : Flat) (a b : Text) : under (under flat a) ("." ++ b) = under flat (a ++ ("." ++ b)) := by
  rw [under, under, under, filterMap_filterMap]
  refine filterMap_congr fun e _ => ?_
  rw [← rest?_bind_rest?]
  cases rest? a e.1 <;> rfl

/-- What is found below a path is found at the longer path. -/
theorem get?_under (flat : Flat) (a t : Text) : get? (under flat a) ("." ++ t) = get? flat (a ++ ("." ++ t)) := by
  induction flat with
  | nil => rfl
  | cons e flat ih =>
    obtain ⟨path, v⟩ := e
    have hcons : under ((path, v) :: flat) a = ((rest? a path).map (·, v)).toList ++ under flat a := by
      rw [under, filterMap_cons]
      cases rest? a path <;> rfl
    rw [hcons, get?_append, ih, get?_cons]
    cases hrest : rest? a path with
    | none =>
      have hne : path ≠ a ++ ("." ++ t) := by
        rintro rfl
        rw [rest?_eq_some_iff.mpr ⟨rfl, prefix_append _ t⟩] at hrest
        cases hrest
      rw [if_neg (by simpa using hne)]
      rfl
    | some r =>
      obtain ⟨rfl, -⟩ := rest?_eq_some_iff.mp hrest
      have hkey : (a ++ r == a ++ ("." ++ t)) = (r == ("." ++ t)) := by
        rw [Bool.eq_iff_iff, beq_iff_eq, beq_iff_eq, append_right_inj]
      rw [hkey, map_some, toList_some, get?_cons]
      split <;> simp

theorem below_eq (flat : Flat) (a : Text) : below flat (a ++ ".") = (under flat a).map fun e => (e.1.drop 1, e.2) := by
  rw [below, under, map_filterMap]
  refine filterMap_congr fun e _ => ?_
  change (if startsWith e.1 (a ++ ".") then _ else _) = _
  rw [rest?]
  split
  · simp [ofString]
  · rfl

end Flat

/-! ## What fields give -/

namespace View

variable {f : Key × Json} {es : Flat} {e : Text × Json}

theorem isJavaDate_of_single {v : Json} (h : v.isContainer = false) : v.isJavaDate = false := by
  cases v with
  | arr _ | obj _ _ => cases h
  | _ => rfl

theorem fieldLeaves_single (h : f.2.isContainer = false) : fieldLeaves f = [("." ++ f.1.display, f.2)] := by
  refine fieldLeaves_of_ok ?_
  rw [partEntries, isJavaDate_of_single h, h]
  rfl

section Object

variable {key : Key} {kind : ObjectKind} {fields : List (Key × Json)}
  (hdate : (obj kind fields).isJavaDate = false) (hname : componentName? fields = .ok none)
  (hread : IsReadableField (key, .obj kind fields))

include hdate hname hread

theorem isReadable_of_obj : ∀ f ∈ fields, IsReadableField f := by
  obtain ⟨es, hes⟩ := hread
  rw [Component.partEntries_obj kind hdate hname, entriesFields_iff (dot_append_ne_nil _)] at hes
  exact hes.1

/-- An object without a name gives what its fields give. -/
theorem fieldLeaves_obj :
    fieldLeaves (key, .obj kind fields) = shift ("." ++ key.display) (fields.flatMap fieldLeaves) := by
  obtain ⟨es, hes⟩ := hread
  rw [fieldLeaves_of_ok hes]
  rw [Component.partEntries_obj kind hdate hname, entriesFields_iff (dot_append_ne_nil _)] at hes
  exact hes.2

end Object

/-! ## The paths of what a field gives -/

/-- A key that goes on in a path goes on with one of these. -/
def stops : Text := [.char '.', .char '[']

theorem dot_prefix_of_mem_fieldLeaves (he : e ∈ fieldLeaves f) : ("." : Text) ++ f.1.display <+: e.1 :=
  prefix_of_mem_partEntries (ok_of_mem_fieldLeaves he) he

theorem exists_bracket_of_entries {here : Text} {items : List Json} (h : entries here (.arr items) = .ok es)
    (he : e ∈ es) : ∃ r, e.1 = here ++ .char '[' :: r := by
  rw [entries] at h
  obtain ⟨x, -, j, own, hown, hmem⟩ := exists_of_mem_entriesItems h he
  have hitem : item here j <+: e.1 := by
    rw [Locator.itemEntries] at hown
    split at hown
    · exact prefix_of_mem_entries hown hmem
    · cases hown
      rw [mem_singleton.mp hmem]
  obtain ⟨r, hr⟩ := hitem
  exact ⟨natText j ++ ("]" ++ r), by rw [← hr]; simp [item, ofString]⟩

theorem exists_dot_of_entries {here : Text} (hhere : here ≠ []) {kind : ObjectKind} {fields : List (Key × Json)}
    (h : entries here (.obj kind fields) = .ok es) (he : e ∈ es) :
    ∃ r, e.1 = here ++ .char '.' :: r := by
  obtain ⟨path, hpath, hfields⟩ := bind_eq_ok.mp h
  have hstart : ∃ s, path = here ++ s ∧ (s = [] ∨ ∃ r, s = .char '.' :: r) := by
    obtain ⟨name?, -, rfl⟩ := map_eq_ok.mp hpath
    cases name? with
    | none => exact ⟨[], (append_nil here).symm, .inl rfl⟩
    | some name =>
      refine ⟨"." ++ name.display, ?_, .inr ⟨name.display, rfl⟩⟩
      exact (child_of_ne_nil hhere _).trans (append_assoc ..)
  obtain ⟨s, rfl, hs⟩ := hstart
  obtain ⟨-, rfl⟩ := (entriesFields_iff (by simp [hhere])).mp hfields
  obtain ⟨l, hl, rfl⟩ := mem_map.mp he
  obtain ⟨f, -, hl⟩ := mem_flatMap.mp hl
  obtain ⟨r, hr⟩ := dot_prefix_of_mem_fieldLeaves hl
  rw [← hr]
  obtain rfl | ⟨t, rfl⟩ := hs
  · exact ⟨f.1.display ++ r, by simp [ofString]⟩
  · exact ⟨t ++ ("." ++ f.1.display ++ r), by simp⟩

/-- What a field gives is its value, or has a path that goes on after the key. -/
theorem mem_fieldLeaves_cases (he : e ∈ fieldLeaves f) : (f.2.isContainer = false ∧ e = ("." ++ f.1.display, f.2)) ∨
      (f.2.isContainer = true ∧ ∃ stop ∈ stops, ∃ r, e.1 = "." ++ f.1.display ++ stop :: r) := by
  cases hsingle : f.2.isContainer with
  | false =>
    rw [fieldLeaves_single hsingle, mem_singleton] at he
    exact .inl ⟨rfl, he⟩
  | true =>
    refine .inr ⟨rfl, ?_⟩
    have hes := ok_of_mem_fieldLeaves he
    rw [partEntries, hsingle, if_pos rfl] at hes
    split at hes
    · rw [← Except.ok.inj hes, mem_singleton] at he
      exact ⟨.char '.', by decide, "_JavaDate", by rw [he]; rfl⟩
    · cases hv : f.2 with
      | arr items => exact ⟨.char '[', by decide, exists_bracket_of_entries (hv ▸ hes) he⟩
      | obj kind fields => exact ⟨.char '.', by decide, exists_dot_of_entries (dot_append_ne_nil _) (hv ▸ hes) he⟩
      | _ => rw [hv] at hsingle; cases hsingle

/-- A word that no path goes on after. -/
def IsWord (word : Text) : Prop := ∀ stop ∈ stops, stop ∉ word

instance (word : Text) : Decidable (IsWord word) := inferInstanceAs (Decidable (∀ stop ∈ stops, stop ∉ word))

theorem split_of_mem_fieldLeaves (he : e ∈ fieldLeaves f) {word r : Text}
    (hword : IsWord word) (h : e.1 = "." ++ (word ++ r)) :
    ∃ s t, f.1.display = word ++ s ∧ r = s ++ t ∧ (t = [] → f.2.isContainer = false ∧ e.2 = f.2) := by
  -- Where the path goes on after the key, the word has ended.
  obtain ⟨t, ht, hend, hvalue⟩ : ∃ t, e.1 = "." ++ (f.1.display ++ t) ∧ (∀ stop s, t = stop :: s → stop ∈ stops) ∧
      (t = [] → f.2.isContainer = false ∧ e.2 = f.2) := by
    obtain ⟨hsingle, rfl⟩ | ⟨-, stop, hstop, s, hs⟩ := mem_fieldLeaves_cases he
    · exact ⟨[], by rw [append_nil], by simp, fun _ => ⟨hsingle, rfl⟩⟩
    · refine ⟨stop :: s, by rw [hs, append_assoc], ?_, by simp⟩
      rintro stop' s' hcons
      rwa [← (cons.inj hcons).1]
  rw [ht, append_right_inj] at h
  obtain ⟨s, hs, hr⟩ | ⟨s, hs, hr⟩ := append_eq_append_iff.mp h
  · cases s with
    | nil => exact ⟨[], t, by simpa using hs.symm, by simpa using hr.symm, hvalue⟩
    | cons stop s =>
      refine absurd ?_ (hword stop (hend stop _ hr))
      rw [hs]
      simp
  · exact ⟨s, t, hs, hr, hvalue⟩

/-! ## What stands at a key and below it -/

/-- No key among some fields goes on with a dot after a word. -/
def KeepsApart (word : Text) (fields : List (Key × Json)) : Prop :=
  ∀ f ∈ fields, ¬ (word ++ "." : Text) <+: f.1.display

section Fields

variable {fields : List (Key × Json)} {word : Text} (hword : IsWord word)

include hword

theorem under_fieldLeaves_of_ne {f : Key × Json} (hne : f.1.display ≠ word)
    (hapart : ¬ (word ++ "." : Text) <+: f.1.display) :
    under (fieldLeaves f) ("." ++ word) = [] := by
  rw [under_eq_nil_iff]
  intro e he r hr
  rw [append_assoc] at hr
  obtain ⟨s, t, hs, hst, -⟩ := split_of_mem_fieldLeaves he hword hr
  cases s with
  | nil => exact hne (by rw [hs, append_nil])
  | cons a s =>
    refine hapart ⟨s, ?_⟩
    obtain ⟨rfl, -⟩ := cons.inj hst
    rw [hs, append_assoc]
    rfl

theorem under_fields (hdoc : isDocumentFields fields = true) (hapart : KeepsApart word fields) :
    under (fields.flatMap fieldLeaves) ("." ++ word) = ((get? fields (.name word)).map fun v =>
        under (fieldLeaves (.name word, v)) ("." ++ word)).getD [] := by
  rw [under_flatMap]
  induction fields with
  | nil => rfl
  | cons f fields ih =>
    obtain ⟨s, v, rfl, hfresh, -, hdoc⟩ := of_isDocumentFields_cons hdoc
    obtain ⟨hhead, hrest⟩ := forall_mem_cons.mp hapart
    rw [flatMap_cons, ih hdoc hrest, get?_cons, Key.name_beq_name]
    by_cases hs : s = word
    · subst hs
      simp [hfresh]
    · have hnil := under_fieldLeaves_of_ne hword (f := (.name s, v)) hs hhead
      rw [hnil]
      simp [hs]

theorem get?_fields (hdoc : Json.isDocumentFields fields = true) : get? (fields.flatMap fieldLeaves) ("." ++ word) =
      (get? fields (.name word)).filter fun v => !v.isContainer := by
  induction fields with
  | nil => rfl
  | cons f fields ih =>
    obtain ⟨s, v, rfl, hfresh, -, hdoc⟩ := of_isDocumentFields_cons hdoc
    have hown : get? (fieldLeaves (.name s, v)) ("." ++ word) =
        if s = word ∧ v.isContainer = false then some v else none := by
      split
      · next h =>
        have hpath : ("." : Text) ++ (Key.name s).display = "." ++ word := congrArg _ h.1
        rw [fieldLeaves_single h.2, get?_cons, hpath, if_pos (beq_self_eq_true _)]
      · next h =>
        rw [Option.eq_none_iff_forall_ne_some]
        intro w hw
        obtain ⟨a, t, ha, hnil, hvalue⟩ := split_of_mem_fieldLeaves (mem_of_get?_eq_some hw) hword
          (r := []) (by rw [append_nil])
        obtain ⟨rfl, rfl⟩ := append_eq_nil_iff.mp hnil.symm
        exact h ⟨ha.trans (append_nil word), (hvalue rfl).1⟩
    rw [flatMap_cons, get?_append, ih hdoc, hown, get?_cons, Key.name_beq_name]
    by_cases hs : s = word
    · subst hs
      cases hv : v.isContainer <;> simp [hfresh, hv, Option.filter]
    · simp [hs]

end Fields

/-! ## Values as tables -/

end View

namespace Json

variable {fields : List (Key × Json)}

theorem nodup_display (h : isDocumentFields fields = true) : (fields.map (·.1.display)).Nodup := by
  induction fields with
  | nil => exact nodup_nil
  | cons f fields ih =>
    obtain ⟨s, v, rfl, hfresh, -, hrest⟩ := of_isDocumentFields_cons h
    refine nodup_cons.mpr ⟨fun hmem => ?_, ih hrest⟩
    obtain ⟨g, hg, heq⟩ := mem_map.mp hmem
    obtain ⟨t, ht⟩ := exists_name_of_mem hrest hg
    rw [ht] at heq
    obtain rfl : t = s := heq
    rw [← ht, get?_of_mem hrest hg] at hfresh
    cases hfresh

theorem isDocument_of_mem (h : isDocumentFields fields = true) {f : Key × Json}
    (hf : f ∈ fields) : f.2.isDocument = true :=
  isDocument_of_get? h (get?_of_mem h hf)

/-- The fields of an object that does not stand for a point in time. -/
def innerFields : Json → List (Key × Json)
  | .obj kind fields => if (obj kind fields).isJavaDate then [] else fields
  | _ => []

/-- A word that is the key of no field which stands for a point in time, nor that of its entry. -/
def IsName (word : Text) : Prop := IsWord word ∧ word ≠ "$" ∧ word ≠ "$ts" ∧ word ≠ "_JavaDate"

instance (word : Text) : Decidable (IsName word) :=
  inferInstanceAs (Decidable (IsWord word ∧ word ≠ "$" ∧ word ≠ "$ts" ∧ word ≠ "_JavaDate"))

theorem get?_innerFields {word : Text} (h : IsName word) (v : Json) :
    Fields.get? v.innerFields (.name word) = v.get? word := by
  cases v with
  | obj kind fields =>
    rw [innerFields]
    split
    · next hdate =>
      obtain ⟨tag, precision, nanos, stamp, -, -, -, hfields⟩ := of_isJavaDate hdate
      refine (Option.eq_none_iff_forall_ne_some.mpr fun w hw => ?_).symm
      obtain hkey | hkey := hfields _ (mem_of_get? hw)
      · exact h.2.1 (Key.name.inj (Prod.mk.inj hkey).1)
      · exact h.2.2.1 (Key.name.inj (Prod.mk.inj hkey).1)
    · rfl
  | _ => rfl

theorem isDocumentFields_innerFields {v : Json} (h : v.isDocument = true) : isDocumentFields v.innerFields = true := by
  cases v with
  | obj kind fields =>
    rw [innerFields]
    split
    · rfl
    · exact h
  | _ => rfl

end Json

namespace View

/-- An object without a name of its own. -/
def IsUnnamed (fields : List (Key × Json)) : Prop := componentName? fields = .ok none

/-- **Below the key of a value** stands what its fields give, or a point in time. -/
theorem under_field {key : Key} {v : Json} (hname : IsUnnamed v.innerFields) (hread : IsReadableField (key, v)) :
    (under (fieldLeaves (key, v)) ("." ++ key.display) = v.innerFields.flatMap fieldLeaves ∧
      ∀ f ∈ v.innerFields, IsReadableField f) ∨
    (v.innerFields = [] ∧ ∃ stamp : Json, (∀ t, stamp ≠ .str t) ∧
      under (fieldLeaves (key, v)) ("." ++ key.display) = [(("._JavaDate" : Text), stamp)]) := by
  have hnil (h : v.innerFields = []) (hpath : ∀ e ∈ fieldLeaves (key, v), ∀ r, e.1 ≠ "." ++ key.display ++ ("." ++ r)) :
      under (fieldLeaves (key, v)) ("." ++ key.display) = v.innerFields.flatMap fieldLeaves ∧
        ∀ f ∈ v.innerFields, IsReadableField f := by
    rw [h]
    exact ⟨under_eq_nil_iff.mpr hpath, forall_mem_nil _⟩
  cases v with
  | obj kind fields =>
    rw [innerFields] at hname ⊢
    split at hname
    · next hdate =>
      rw [if_pos hdate]
      refine .inr ⟨rfl, ((obj kind fields).get? "$ts").getD .null, fun t hstr => ?_, ?_⟩
      · obtain hstamp | hstamp := stamp_cases hdate <;> rw [hstr] at hstamp <;> cases hstamp
      have hleaves : fieldLeaves (key, .obj kind fields) =
          shift ("." ++ key.display) [(("._JavaDate" : Text), ((obj kind fields).get? "$ts").getD .null)] := by
        refine fieldLeaves_of_ok ?_
        rw [partEntries, if_pos hdate]
        rfl
      rw [hleaves]
      refine under_shift_self fun e he => ?_
      rw [mem_singleton.mp he]
      exact ⟨"_JavaDate", rfl⟩
    · next hdate =>
      rw [if_neg hdate]
      have hdate : (obj kind fields).isJavaDate = false := by simpa using hdate
      refine .inl ⟨?_, isReadable_of_obj hdate hname hread⟩
      rw [fieldLeaves_obj hdate hname hread]
      refine under_shift_self fun e he => ?_
      obtain ⟨f, -, he⟩ := mem_flatMap.mp he
      exact (prefix_append _ _).trans (dot_prefix_of_mem_fieldLeaves he)
  | arr items =>
    refine .inl (hnil rfl fun e he r hr => ?_)
    obtain ⟨s, hs⟩ := exists_bracket_of_entries (ok_of_mem_fieldLeaves he) he
    have hstop := (append_cancel_left (hs.symm.trans hr) : CodePoint.char '[' :: s = .char '.' :: r)
    cases hstop
  | _ =>
    refine .inl (hnil rfl fun e he r hr => ?_)
    rw [fieldLeaves_single rfl, mem_singleton] at he
    subst he
    simp [ofString] at hr

section Value

variable {key : Key} {v : Json} (hname : IsUnnamed v.innerFields) (hread : IsReadableField (key, v)) {word : Text}
  (hword : Json.IsName word)

include hname hread hword

theorem isReadable_of_get? {u : Json} (h : v.get? word = some u) : IsReadableField (.name word, u) := by
  rw [← get?_innerFields hword] at h
  obtain ⟨-, hfields⟩ | ⟨hnil, -⟩ := under_field hname hread
  · exact hfields _ (mem_of_get? h)
  · rw [hnil] at h
    cases h

/-- What stands below a key of a value. -/
theorem under_field_word (hdoc : v.isDocument = true) (hapart : KeepsApart word v.innerFields) :
    under (fieldLeaves (key, v)) ("." ++ key.display ++ ("." ++ word)) =
      ((v.get? word).map fun u => under (fieldLeaves (.name word, u)) ("." ++ word)).getD [] := by
  rw [← under_under, ← get?_innerFields hword]
  obtain ⟨htable, -⟩ | ⟨hnil, stamp, -, htable⟩ := under_field hname hread
  · rw [htable, under_fields hword.1 (Json.isDocumentFields_innerFields hdoc) hapart]
  · rw [htable, hnil]
    refine under_eq_nil_iff.mpr fun e he r hr => ?_
    rw [mem_singleton.mp he, append_assoc] at hr
    have htail : ofString "_JavaDate" = word ++ ("." ++ r) := congrArg tail hr
    have hmem : CodePoint.char '.' ∈ ofString "_JavaDate" := by
      rw [htail]
      simp [ofString]
    exact absurd hmem (by decide)

theorem get?_field_word (hdoc : v.isDocument = true) :
    get? (under (fieldLeaves (key, v)) ("." ++ key.display)) ("." ++ word) =
      (v.get? word).filter fun u => !u.isContainer := by
  rw [← get?_innerFields hword]
  obtain ⟨htable, -⟩ | ⟨hnil, stamp, -, htable⟩ := under_field hname hread
  · rw [htable, get?_fields hword.1 (Json.isDocumentFields_innerFields hdoc)]
  · have hne : ¬ ((ofString "._JavaDate" == "." ++ word) = true) := fun heq =>
      hword.2.2.2 (congrArg tail (beq_iff_eq.mp heq)).symm
    rw [htable, hnil, get?_cons, if_neg hne]
    rfl

end Value

end View

end ViewLint
