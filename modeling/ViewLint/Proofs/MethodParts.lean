import Mathlib.Data.List.Perm.Basic
import ViewLint.Proofs.CheckerReports
import ViewLint.Proofs.Component.Paths
import ViewLint.Proofs.Modelled
import ViewLint.Proofs.Occurrences
import ViewLint.Proofs.Rounding

/-!
# The parts of custom methods

A custom method of a component is spread over several entries of the flattened view: its name, its script and each of
its parameters. They are put together again by the owner and the index that the paths tell.

* `MethodPlace`: a custom method with its component and its index.
* **`Flat.customMethods_iff`**: the entries of methods give back the methods, in order, unless an index is too long.
-/

namespace ViewLint

open List Option Text Json Fields View

variable {q : MethodPlace} {ps : List MethodPlace}

/-! ## Indices behind a marker -/

namespace Text

theorem indexAfter?_of_cut? {marker s a digits rest : Text}
    (h : cut? (marker ++ [.char '[']) s = some (a, digits ++ .char ']' :: rest)) (hne : digits ≠ [])
    (hdigits : ∀ c ∈ digits, isDigit c = true) : indexAfter? marker s = some digits := by
  have hindex : bracketed? (.char '[' :: (digits ++ .char ']' :: rest)) = some (digits, rest) :=
    bracketed?_eq_some_iff.mpr ⟨rfl, hne, hdigits⟩
  induction s generalizing a with
  | nil => simp [cut?] at h
  | cons c s ih =>
    rw [cut?] at h
    rw [indexAfter?]
    split at h
    · next hhere =>
      obtain ⟨t, ht⟩ := isPrefixOf_iff_prefix.mp hhere
      have hrest : t = digits ++ .char ']' :: rest := by
        rw [← ht, drop_left] at h
        exact (Prod.mk.inj (some.inj h)).2
      have hmarker : marker.isPrefixOf (c :: s) = true :=
        isPrefixOf_iff_prefix.mpr ⟨.char '[' :: t, by rw [← ht]; simp⟩
      have hdrop : (c :: s).drop marker.length = .char '[' :: t := by
        rw [← ht, append_assoc, drop_left]
        rfl
      simp only [hmarker, if_true, hdrop, hrest, hindex]
    · next hhere =>
      obtain ⟨⟨b, r⟩, hcut, hsome⟩ := map_eq_some_iff.mp h
      obtain ⟨-, rfl⟩ := Prod.mk.inj hsome
      -- No index follows a marker here, for its bracket would follow too
      have hnone : (if marker.isPrefixOf (c :: s) then bracketed? ((c :: s).drop marker.length) else none) = none := by
        split
        · next hmarker =>
          obtain ⟨t, ht⟩ := isPrefixOf_iff_prefix.mp hmarker
          rw [← ht, drop_left]
          refine eq_none_iff_forall_not_mem.mpr fun x hx => hhere ?_
          obtain ⟨rfl, -⟩ := bracketed?_eq_some_iff.mp hx
          rw [← ht]
          exact isPrefixOf_iff_prefix.mpr ⟨x.1 ++ .char ']' :: x.2, append_assoc ..⟩
        · rfl
      simp only [hnone]
      exact ih hcut

end Text

theorem Fields.insert_insert {α β : Type} [BEq α] [LawfulBEq α] (fields : List (α × β)) (key : α) (v w : β) :
    insert (insert fields key v) key w = insert fields key w := by
  induction fields with
  | nil => simp [insert]
  | cons f fields ih =>
    obtain ⟨k, u⟩ := f
    rw [insert, insert]
    split
    · next hk => rw [insert, if_pos hk]
    · next hk => rw [insert, if_neg hk, ih]

/-! ## Custom methods -/

/-- A field of a custom method. -/
inductive MethodField where
  | name
  | params
  | script
  deriving DecidableEq

def MethodField.key : MethodField → Text
  | name => "name"
  | params => "params"
  | script => "script"

/-- A custom method; its fields stand in any order. -/
structure Method where
  name : Text
  params : List Text
  script : Text
  /-- The order of the fields. -/
  layout : List MethodField
  complete : layout.Perm [.name, .params, .script]

namespace Method

def value (m : Method) : MethodField → Json
  | .name => .str m.name
  | .params => .arr (m.params.map .str)
  | .script => .str m.script

def toJson (kind : ObjectKind) (m : Method) : Json := .obj kind (m.layout.map fun f => (.name f.key, m.value f))

theorem mem_layout (m : Method) (f : MethodField) : f ∈ m.layout := by
  rw [m.complete.mem_iff]
  cases f <;> decide

theorem nodup_layout (m : Method) : m.layout.Nodup := m.complete.nodup_iff.mpr (by decide)

end Method

/-- A custom method of a component, with its index. -/
structure MethodPlace where
  /-- The path of the component. -/
  owner : Text
  index : Nat
  method : Method

namespace MethodPlace

variable {e : Text × Json} (p : MethodPlace)

def path : Text := View.item (p.owner ++ ".scripts.customMethods") p.index

def fieldEntries : MethodField → Flat
  | .name => [(p.path ++ ".name", .str p.method.name)]
  | .params => p.method.params.zipIdx.map fun x => (item (p.path ++ ".params") x.2, .str x.1)
  | .script => [(p.path ++ ".script", .str p.method.script)]

def entries : Flat := p.method.layout.flatMap p.fieldEntries

def node : Node := ⟨p.path, .script ⟨.str p.method.script, .customMethod p.method.name p.method.params⟩⟩

/-- The path of the component looks neither like that of a method nor like that of a parameter. -/
structure IsClear : Prop where
  marker : ¬ (".scripts.customMethods" : Text) <:+: p.owner
  params : ¬ ("params[" : Text) <:+: p.owner

/-- The indices of a method and of its parameters can be read. -/
structure Fits : Prop where
  index : p.index < Nat.pow 10 digitLimit
  params : p.method.params.length ≤ Nat.pow 10 digitLimit

/-! ## What a path tells -/

variable {p : MethodPlace}

theorem mem_entries_iff : e ∈ p.entries ↔ ∃ f, e ∈ p.fieldEntries f := by
  rw [entries, mem_flatMap]
  exact ⟨fun h => ⟨h.choose, h.choose_spec.2⟩, fun h => ⟨h.choose, p.method.mem_layout _, h.choose_spec⟩⟩

theorem exists_of_mem_entries (h : e ∈ p.entries) : ∃ rest, e.1 = p.path ++ rest := by
  obtain ⟨f, hf⟩ := mem_entries_iff.mp h
  cases f with
  | name | script =>
    obtain rfl := mem_singleton.mp hf
    exact ⟨_, rfl⟩
  | params =>
    obtain ⟨x, -, rfl⟩ := mem_map.mp hf
    exact ⟨".params[" ++ natText x.2 ++ "]", by simp [item, ofString]⟩

theorem cut?_path (h : p.IsClear) (rest : Text) :
    cut? ((".scripts.customMethods" : Text) ++ [.char '[']) (p.path ++ rest) =
      some (p.owner, natText p.index ++ .char ']' :: rest) := by
  refine (cut?_eq_some_iff (by decide) (by decide)).mpr ⟨?_, fun hin => h.marker ?_⟩
  · simp [path, item, ofString]
  · exact (prefix_append _ _).isInfix.trans hin

theorem indexAfter?_path (h : p.IsClear) (rest : Text) :
    indexAfter? ".scripts.customMethods" (p.path ++ rest) = some (natText p.index) :=
  indexAfter?_of_cut? (cut?_path h rest) (natText_ne_nil _) fun _ hc => isDigit_of_mem_natText hc

theorem before_path (h : p.IsClear) (rest : Text) : before ".scripts.customMethods" (p.path ++ rest) = p.owner := by
  have hcut : cut? ".scripts.customMethods" (p.path ++ rest) =
      some (p.owner, .char '[' :: (natText p.index ++ .char ']' :: rest)) := by
    refine (cut?_eq_some_iff (by decide) (by decide)).mpr ⟨?_, h.marker⟩
    simp [path, item, ofString]
  rw [before, hcut]
  rfl

/-- The index of a parameter is the first behind `params`. -/
theorem indexAfter?_param (h : p.IsClear) (i : Nat) :
    indexAfter? "params" (item (p.path ++ ".params") i) = some (natText i) := by
  have hcut : cut? (("params" : Text) ++ [.char '[']) (item (p.path ++ ".params") i) =
      some (p.path ++ ".", natText i ++ .char ']' :: []) := by
    refine (cut?_eq_some_iff (by decide) (by decide)).mpr ⟨by simp [item, ofString], fun hin => ?_⟩
    -- The one bracket behind the owner does not follow `params`
    have hsplit : p.path ++ ofString "." = p.owner ++ ofString ".scripts.customMethods" ++ [.char '['] ++
        (natText p.index ++ ofString "].") := by
      simp [path, item, ofString]
    have hindex : .char '[' ∉ natText p.index ++ ofString "]." :=
      fun hmem => (mem_append.mp hmem).elim (not_mem_natText '[' rfl p.index) (by decide)
    rw [hsplit, infix_append_free hindex, infix_concat_iff] at hin
    obtain hend | hin := hin
    · rw [append_assoc] at hend
      exact not_suffix_of_suffix (suffix_append _ _) (by decide) (by decide) hend
    · rw [infix_append_free (by decide)] at hin
      exact h.params hin
  exact indexAfter?_of_cut? hcut (natText_ne_nil i) fun _ hc => isDigit_of_mem_natText hc

end MethodPlace

/-! ## Learning from an entry -/

namespace Flat

/-- Whether an entry belongs to a method. -/
def isPart (e : Text × Json) : Bool := (Text.indexAfter? ".scripts.customMethods" e.1).isSome

theorem methodParts_filter (flat : Flat) : methodParts (flat.filter isPart) = flat.methodParts := by
  have hfold (seen : List (Text × MethodParts)) :
      (flat.filter isPart).foldlM addMethod seen = flat.foldlM addMethod seen := by
    induction flat generalizing seen with
    | nil => rfl
    | cons e flat ih =>
      rw [filter_cons]
      split
      · simp only [foldlM_cons, ih]
      · next hno =>
        have hnone : indexAfter? ".scripts.customMethods" e.1 = none := by simpa [isPart] using hno
        have hskip : addMethod seen e = .ok seen := by rw [addMethod, hnone]
        rw [ih, foldlM_cons, hskip]
        rfl
  exact hfold []

theorem readIndex_natText_iff {i j : Nat} : readIndex (natText i) = .ok j ↔ i < Nat.pow 10 digitLimit ∧ j = i := by
  have hlength : (natText i).length ≤ digitLimit ↔ i < Nat.pow 10 digitLimit :=
    length_natDigits_le_iff (by decide)
  rw [readIndex, digitsValue_natText, ← hlength, ← Nat.not_lt]
  split <;> simp_all [eq_comm]

end Flat

namespace MethodPlace

open Flat

def key (p : MethodPlace) : Text := p.owner ++ ".customMethod_" ++ natText p.index

def blank (p : MethodPlace) : MethodParts := { path := p.path }

def parts (p : MethodPlace) : MethodParts :=
  ⟨p.path, .str p.method.name, p.method.params.map .str, .str p.method.script⟩

variable {p : MethodPlace}

theorem addMethod_path_iff (h : p.IsClear) {seen s : List (Text × MethodParts)} {rest : Text} {v : Json} :
    addMethod seen (p.path ++ rest, v) = .ok s ↔ p.index < Nat.pow 10 digitLimit ∧
      ∃ m, ((get? seen p.key).getD p.blank).learn (p.path ++ rest) v = .ok m ∧ s = insert seen p.key m := by
  have hpath : p.owner ++ ofString ".scripts.customMethods[" ++ natText p.index ++ "]" = p.path := by
    simp [path, item, ofString]
  rw [addMethod_eq_ok_iff (indexAfter?_path h rest)]
  simp only [before_path h, readIndex_natText_iff]
  constructor
  · rintro ⟨_, m, ⟨hindex, rfl⟩, hm, rfl⟩
    rw [hpath] at hm
    exact ⟨hindex, m, hm, rfl⟩
  · rintro ⟨hindex, m, hm, rfl⟩
    refine ⟨p.index, m, ⟨hindex, rfl⟩, ?_, rfl⟩
    rw [hpath]
    exact hm

/-- Entries of one method, one after another. -/
theorem foldlM_addMethod_iff (h : p.IsClear) {es : Flat} (hne : es ≠ [])
    (hes : ∀ e ∈ es, ∃ rest, e.1 = p.path ++ rest) {seen s : List (Text × MethodParts)} :
    es.foldlM addMethod seen = .ok s ↔ p.index < Nat.pow 10 digitLimit ∧
      ∃ m, es.foldlM (fun m e => m.learn e.1 e.2) ((get? seen p.key).getD p.blank) = .ok m ∧
        s = insert seen p.key m := by
  induction es generalizing seen with
  | nil => exact absurd rfl hne
  | cons e es ih =>
    obtain ⟨⟨rest, hrest⟩, hothers⟩ := forall_mem_cons.mp hes
    obtain ⟨path, v⟩ := e
    subst hrest
    simp only [foldlM_cons, bind_eq_ok, addMethod_path_iff h]
    by_cases hnil : es = []
    · subst hnil
      constructor
      · rintro ⟨_, ⟨hindex, m, hm, rfl⟩, hs⟩
        exact ⟨hindex, m, ⟨m, hm, rfl⟩, (Except.ok.inj hs).symm⟩
      · rintro ⟨hindex, m, ⟨_, hm, hs⟩, rfl⟩
        cases hs
        exact ⟨_, ⟨hindex, m, hm, rfl⟩, rfl⟩
    · have hnext (m : MethodParts) := @ih hnil hothers (insert seen p.key m)
      simp only [get?_insert, BEq.rfl, if_true, getD_some, insert_insert] at hnext
      constructor
      · rintro ⟨_, ⟨hindex, m, hm, rfl⟩, hs⟩
        obtain ⟨-, m', hm', rfl⟩ := (hnext m).mp hs
        exact ⟨hindex, m', ⟨m, hm, hm'⟩, rfl⟩
      · rintro ⟨hindex, m', ⟨m, hm, hm'⟩, rfl⟩
        exact ⟨_, ⟨hindex, m, hm, rfl⟩, (hnext m).mpr ⟨hindex, m', hm', rfl⟩⟩

/-! ## Learning all of a method -/

theorem endsWith_append (a b : Text) : endsWith (a ++ b) b = true :=
  isSuffixOf_iff_suffix.mpr (suffix_append a b)

theorem endsWith_append_eq_false {a b c : Text} (hbc : ¬ b <:+ c) (hcb : ¬ c <:+ b) : endsWith (a ++ b) c = false :=
  Bool.eq_false_iff.mpr fun h =>
    not_suffix_of_suffix (suffix_append a b) hbc hcb (isSuffixOf_iff_suffix.mp h)

theorem learn_name (m : MethodParts) (path : Text) (v : Json) :
    m.learn (path ++ ".name") v = .ok { m with name := v } := by
  rw [MethodParts.learn, if_pos (endsWith_append _ _)]

theorem learn_script (m : MethodParts) (path : Text) (v : Json) :
    m.learn (path ++ ".script") v = .ok { m with text := v } := by
  rw [MethodParts.learn, endsWith_append_eq_false (by decide) (by decide), if_neg (by decide),
    if_pos (endsWith_append _ _)]

theorem learn_param_iff (h : p.IsClear) {m m' : MethodParts} {i : Nat} {v : Json} :
    m.learn (item (p.path ++ ".params") i) v = .ok m' ↔
      i < Nat.pow 10 digitLimit ∧ m' = { m with params := setPadded m.params i v } := by
  have hend (ending : Text) (h₁ : ¬ "]" <:+ ending) (h₂ : ¬ ending <:+ "]") :
      endsWith (item (p.path ++ ".params") i) ending = false :=
    endsWith_append_eq_false h₁ h₂
  have hholds : holds (item (p.path ++ ".params") i) "params" = true :=
    holds_iff_isInfix.mpr ⟨p.path ++ ".", "[" ++ natText i ++ "]", by simp [item, ofString]⟩
  rw [MethodParts.learn, hend _ (by decide) (by decide), hend _ (by decide) (by decide), hholds,
    indexAfter?_param h]
  simp only [if_true, Bool.false_eq_true, if_false, map_eq_ok, readIndex_natText_iff]
  constructor
  · rintro ⟨_, ⟨hi, rfl⟩, rfl⟩
    exact ⟨hi, rfl⟩
  · rintro ⟨hi, rfl⟩
    exact ⟨i, ⟨hi, rfl⟩, rfl⟩

/-- Parameters are learnt in order. -/
theorem foldlM_params_iff (h : p.IsClear) {ts : List Text} {i : Nat} (hi : i ≤ Nat.pow 10 digitLimit)
    {m m' : MethodParts} (hm : m.params.length = i) :
    ((ts.zipIdx i).map fun x => (item (p.path ++ ".params") x.2, str x.1)).foldlM
        (fun m e => m.learn e.1 e.2) m = .ok m' ↔
      i + ts.length ≤ Nat.pow 10 digitLimit ∧ m' = { m with params := m.params ++ ts.map .str } := by
  induction ts generalizing i m with
  | nil => simpa [pure, Except.pure, eq_comm] using fun _ => hi
  | cons t ts ih =>
    have hset : setPadded m.params i (.str t) = m.params ++ [.str t] := by simp [setPadded, hm]
    simp only [zipIdx_cons, map_cons, foldlM_cons, bind_eq_ok, learn_param_iff h, hset]
    constructor
    · rintro ⟨_, ⟨hlt, rfl⟩, hrest⟩
      obtain ⟨hle, rfl⟩ := (ih hlt (by simp [hm])).mp hrest
      exact ⟨by rw [length_cons]; omega, by simp⟩
    · rintro ⟨hle, rfl⟩
      rw [length_cons] at hle
      exact ⟨_, ⟨by omega, rfl⟩, (ih (by omega) (by simp [hm])).mpr ⟨by omega, by simp⟩⟩

def fill (p : MethodPlace) (m : MethodParts) : MethodField → MethodParts
  | .name => { m with name := .str p.method.name }
  | .params => { m with params := p.method.params.map .str }
  | .script => { m with text := .str p.method.script }

instance (p : MethodPlace) : RightCommutative p.fill where
  right_comm m f g := by cases f <;> cases g <;> rfl

theorem foldlM_field_iff (h : p.IsClear) {f : MethodField} {m m' : MethodParts} (hm : f = .params → m.params = []) :
    (p.fieldEntries f).foldlM (fun m e => m.learn e.1 e.2) m = .ok m' ↔
      (f = .params → p.method.params.length ≤ Nat.pow 10 digitLimit) ∧ m' = p.fill m f := by
  cases f with
  | name => simp [fieldEntries, fill, learn_name, eq_comm]
  | script => simp [fieldEntries, fill, learn_script, eq_comm]
  | params =>
    have hnil := hm rfl
    rw [fieldEntries, foldlM_params_iff h (Nat.zero_le _) (by rw [hnil]; rfl), fill, hnil]
    simp

theorem foldlM_entries_iff (h : p.IsClear) {m : MethodParts} :
    p.entries.foldlM (fun m e => m.learn e.1 e.2) p.blank = .ok m ↔
      p.method.params.length ≤ Nat.pow 10 digitLimit ∧ m = p.parts := by
  have hfields (fs : List MethodField) (hfs : fs.Nodup) (m m' : MethodParts) (hm : .params ∈ fs → m.params = []) :
      (fs.flatMap p.fieldEntries).foldlM (fun m e => m.learn e.1 e.2) m = .ok m' ↔
        (.params ∈ fs → p.method.params.length ≤ Nat.pow 10 digitLimit) ∧ m' = fs.foldl p.fill m := by
    induction fs generalizing m with
    | nil => simp [pure, Except.pure, eq_comm]
    | cons f fs ih =>
      obtain ⟨hf, hfs⟩ := nodup_cons.mp hfs
      have hfirst (m'' : MethodParts) := @foldlM_field_iff p h f m m'' fun heq => hm (heq ▸ mem_cons_self)
      have hkeep : .params ∈ fs → (p.fill m f).params = [] := by
        intro hmem
        cases f with
        | params => exact absurd hmem hf
        | name | script => exact hm (mem_cons_of_mem _ hmem)
      rw [flatMap_cons, foldlM_append, bind_eq_ok]
      simp only [hfirst, mem_cons, foldl_cons]
      constructor
      · rintro ⟨_, ⟨hfit, rfl⟩, hrest⟩
        obtain ⟨hfits, rfl⟩ := (ih hfs _ hkeep).mp hrest
        exact ⟨fun hmem => hmem.elim (fun heq => hfit heq.symm) hfits, rfl⟩
      · rintro ⟨hfits, rfl⟩
        refine ⟨_, ⟨fun heq => hfits (.inl heq.symm), rfl⟩, (ih hfs _ hkeep).mpr ⟨fun hmem => ?_, rfl⟩⟩
        exact hfits (.inr hmem)
  have hall : p.method.layout.foldl p.fill p.blank = p.parts := p.method.complete.foldl_eq p.blank
  rw [entries, hfields _ p.method.nodup_layout _ _ fun _ => rfl, hall]
  simp only [p.method.mem_layout, forall_const]

/-! ## Several methods -/

/-- Where a method stands: its component and its index. -/
def spot (p : MethodPlace) : Text × Nat := (p.owner, p.index)

theorem spot_eq_of_key_eq (h : p.key = q.key) : p.spot = q.spot := by
  have hdigits (i : Nat) : .char '_' ∉ natText i := not_mem_natText '_' rfl i
  have hsplit (p : MethodPlace) : p.key = (p.owner ++ ".customMethod") ++ .char '_' :: natText p.index := by
    simp [key, ofString]
  rw [hsplit, hsplit] at h
  obtain ⟨howner, hindex⟩ := append_cons_inj_right (hdigits _) (hdigits _) h
  exact Prod.ext (append_cancel_right howner) (natText_inj hindex)

theorem spot_eq_of_path_eq (hp : p.IsClear) (hq : q.IsClear) {a b : Text}
    (h : p.path ++ a = q.path ++ b) : p.spot = q.spot := by
  have howner : p.owner = q.owner := by rw [← before_path hp a, h, before_path hq b]
  have hindex : some (natText p.index) = some (natText q.index) := by
    rw [← indexAfter?_path hp a, h, indexAfter?_path hq b]
  exact Prod.ext howner (natText_inj (some.inj hindex))

theorem entries_ne_nil : p.entries ≠ [] := by
  have hmem : (p.path ++ ".name", str p.method.name) ∈ p.entries :=
    mem_entries_iff.mpr ⟨.name, mem_singleton_self _⟩
  exact ne_nil_of_mem hmem

theorem nodup_entries (p : MethodPlace) : (p.entries.map (·.1)).Nodup := by
  -- The field shows in the first letter of its key
  have htell (f : MethodField) : ∀ e ∈ p.fieldEntries f, e.1[p.path.length + 1]? = f.key.head? := by
    intro e he
    cases f with
    | name | script =>
      obtain rfl := mem_singleton.mp he
      simp [MethodField.key, ofString]
    | params =>
      obtain ⟨x, -, rfl⟩ := mem_map.mp he
      simp [MethodField.key, item, ofString]
  have hletter (f g : MethodField) (h : f.key.head? = g.key.head?) : f = g := by
    cases f <;> cases g <;> first | rfl | exact absurd h (by decide)
  rw [entries, map_flatMap, nodup_flatMap]
  refine ⟨fun f _ => ?_, p.method.nodup_layout.imp fun {f g} hne path hpath hpath' => ?_⟩
  · cases f with
    | name | script => exact nodup_singleton _
    | params =>
      have hitem : Function.Injective (item (p.path ++ ".params")) := fun i j hij =>
        (Component.item_append_inj (r := []) (s := []) (by rw [append_nil, append_nil, hij])).1
      have hpaths : (p.fieldEntries .params).map (·.1) =
          (range' 0 p.method.params.length).map (item (p.path ++ ".params")) := by
        rw [← List.zipIdx_map_snd, List.map_map, fieldEntries, List.map_map]
        rfl
      rw [hpaths]
      exact Nodup.map hitem nodup_range'
  · obtain ⟨e, he, rfl⟩ := mem_map.mp hpath
    obtain ⟨e', he', heq⟩ := mem_map.mp hpath'
    exact hne (hletter f g (by rw [← htell f e he, ← htell g e' he', heq]))

/-- **Methods one after another.** -/
theorem foldlM_flatMap_iff (hclear : ∀ p ∈ ps, p.IsClear) (hnodup : (ps.map key).Nodup)
    {seen s : List (Text × MethodParts)} (hseen : ∀ p ∈ ps, get? seen p.key = none) :
    (ps.flatMap entries).foldlM addMethod seen = .ok s ↔
      (∀ p ∈ ps, p.Fits) ∧ s = seen ++ ps.map fun p => (p.key, p.parts) := by
  induction ps generalizing seen with
  | nil => simp [pure, Except.pure, eq_comm]
  | cons p ps ih =>
    obtain ⟨hp, hps⟩ := forall_mem_cons.mp hclear
    obtain ⟨hfresh, hnodup⟩ := nodup_cons.mp hnodup
    obtain ⟨hnone, hseen⟩ := forall_mem_cons.mp hseen
    have hnext : ∀ q ∈ ps, get? (seen ++ [(p.key, p.parts)]) q.key = none := by
      intro q hq
      have hne : p.key ≠ q.key := fun heq => hfresh (heq ▸ mem_map_of_mem hq)
      simp [get?_append, get?_cons, hseen q hq, hne]
    rw [flatMap_cons, foldlM_append, bind_eq_ok]
    simp only [foldlM_addMethod_iff hp entries_ne_nil fun _ => exists_of_mem_entries, hnone, getD_none,
      foldlM_entries_iff hp, insert_of_get?_eq_none hnone]
    constructor
    · rintro ⟨_, ⟨hindex, _, ⟨hparams, rfl⟩, rfl⟩, hrest⟩
      obtain ⟨hfits, rfl⟩ := (ih hps hnodup hnext).mp hrest
      exact ⟨forall_mem_cons.mpr ⟨⟨hindex, hparams⟩, hfits⟩, by simp⟩
    · rintro ⟨hfits, rfl⟩
      obtain ⟨hfit, hfits⟩ := forall_mem_cons.mp hfits
      exact ⟨_, ⟨hfit.index, _, ⟨hfit.params, rfl⟩, rfl⟩, (ih hps hnodup hnext).mpr ⟨hfits, by simp⟩⟩

theorem toNode_parts (p : MethodPlace) : p.parts.toNode = .ok p.node := by
  have htexts (i : Nat) (ts : List Text) : textsFrom i (ts.map .str) = .ok ts := by
    induction ts generalizing i with
    | nil => rfl
    | cons t ts ih =>
      rw [map_cons, textsFrom, ih]
      rfl
  have hrole : ScriptRole.method p.parts.name (.arr p.parts.params) =
      .ok (.customMethod p.method.name p.method.params) := by
    change (textsFrom 1 (p.method.params.map .str) >>= fun texts => _) = _
    rw [htexts]
    rfl
  change (ScriptRole.method _ _ >>= fun role => _) = _
  rw [hrole]
  rfl

end MethodPlace

namespace Flat

open MethodPlace

theorem nodup_flatMap_entries (hclear : ∀ p ∈ ps, p.IsClear)
    (hnodup : (ps.map spot).Nodup) : ((ps.flatMap entries).map (·.1)).Nodup := by
  rw [nodup_iff_pairwise_ne, pairwise_map] at hnodup
  rw [map_flatMap, nodup_flatMap]
  refine ⟨fun p _ => p.nodup_entries, hnodup.imp_of_mem fun {p q} hp hq hne => ?_⟩
  intro path hpath hpath'
  obtain ⟨e, he, rfl⟩ := mem_map.mp hpath
  obtain ⟨e', he', heq⟩ := mem_map.mp hpath'
  obtain ⟨a, ha⟩ := exists_of_mem_entries he
  obtain ⟨b, hb⟩ := exists_of_mem_entries he'
  exact hne (spot_eq_of_path_eq (hclear p hp) (hclear q hq) (a := a) (b := b) (by rw [← ha, ← hb, heq]))

theorem customMethods_iff {flat : Flat} (hflat : flat.filter isPart = ps.flatMap entries)
    (hclear : ∀ p ∈ ps, p.IsClear) (hnodup : (ps.map spot).Nodup) {nodes : List Node} :
    flat.customMethods = .ok nodes ↔ (∀ p ∈ ps, p.Fits) ∧ nodes = ps.map node := by
  have hkeys : (ps.map key).Nodup := by
    rw [nodup_iff_pairwise_ne, pairwise_map] at hnodup ⊢
    exact hnodup.imp fun hne heq => hne (spot_eq_of_key_eq heq)
  have hparts (found : List (Text × MethodParts)) : flat.methodParts = .ok found ↔
      (∀ p ∈ ps, p.Fits) ∧ found = ps.map fun p => (p.key, p.parts) := by
    rw [← methodParts_filter, hflat, methodParts_eq, foldlM_flatMap_iff hclear hkeys fun _ _ => rfl]
    rfl
  have hnodes : (ps.map fun p => (p.key, p.parts)).mapM (fun x => x.2.toNode) = .ok (ps.map node) := by
    clear * -
    induction ps with
    | nil => rfl
    | cons p ps ih =>
      rw [map_cons, mapM_cons, toNode_parts, ih]
      rfl
  rw [customMethods, bind_eq_ok]
  simp only [hparts]
  constructor
  · rintro ⟨_, ⟨hfits, rfl⟩, h⟩
    exact ⟨hfits, (Except.ok.inj (hnodes.symm.trans h)).symm⟩
  · rintro ⟨hfits, rfl⟩
    exact ⟨_, ⟨hfits, rfl⟩, hnodes⟩

end Flat

end ViewLint
