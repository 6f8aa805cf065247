import ViewLint.Proofs.FixPreview

/-!
# Fixes in any order

Fixes without a conflict touch different places. As long as these hold single values, what stands at each of
them in the end depends on one fix only, and so the order of the fixes does not matter.

* `Fix.Apart`, `Fix.conflicts_eq_nil_iff`: without a conflict no two fixes touch one place, and vice versa.
* `Bench.Reflects`, `Bench.Reflects.applyOperation`: the same on a bench.
* **`Fix.any_order`**: fixes without a conflict are all applied in any order, with one result.
-/

namespace ViewLint

open List Option

/-! ## Single values -/

namespace Json

variable {σ : Path → Option Json}

/-- The single value that stands at a place. -/
def leaf? (v : Json) (place : Path) : Option Json := (v.getAt place).toOption.filter (!·.isContainer)

variable {v w x : Json} {place : Path}

theorem At.of_leaf? (h : v.At place w) (hx : v.leaf? place = some x) : x = w ∧ w.isContainer = false := by
  simp only [leaf?, h.getAt, Except.toOption, Option.filter_eq_some_iff] at hx
  obtain ⟨heq, hsingle⟩ := hx
  cases heq
  exact ⟨rfl, by simpa using hsingle⟩

/-- Above a single value there is none. -/
theorem At.leaf?_eq_none (h : v.At place w) {q : Path} (hq : q <+: place) (hne : q ≠ place) : v.leaf? q = none := by
  obtain ⟨rest, rfl⟩ := hq
  obtain ⟨u, hu, hrest⟩ := at_append_iff.mp h
  rw [eq_none_iff_forall_not_mem]
  intro x hx
  cases rest with
  | nil => exact hne (append_nil q).symm
  | cons step rest => exact not_at_cons_of_single (hu.of_leaf? hx).2 hrest

theorem At.graft_some (hat : v.At place w) (hclear : ClearAbove σ place)
    (hx : σ place = some x) : (v.graft σ).At place x := by
  have h := at_graft hat hclear
  rwa [graft_of_some (σ := fun q => σ (place ++ q)) (by rwa [append_nil])] at h

theorem At.ne_nil (h : v.At place w) (hv : v.isContainer = true) (hw : w.isContainer = false) : place ≠ [] := by
  rintro rfl
  cases at_nil_iff.mp h
  cases hv.symm.trans hw

theorem At.isProper (h : v.At place w) : place.isProper = true := by
  induction h with
  | here => rfl
  | field _ _ ih | item _ _ ih => exact (Bool.true_and _).trans ih

end Json

/-- Whether what is exchanged inside a text are texts. -/
def Change.isTextual : Change → Bool
  | .set _ _ => true
  | .replace (.str _) (.str _) => true
  | .replace _ _ => false

def Change.result : Change → Json → Json
  | .set _ new, _ => new
  | .replace (.str old) (.str new), .str s => .str (if Text.holds s old then Text.replace old new s else s)
  | .replace _ _, v => v

namespace Fix

open Json

/-! ## Fixes that touch different places -/

/-- Two fixes have no path in common. -/
def Apart (f g : Fix) : Prop := ∀ a ∈ f.operations, ∀ b ∈ g.operations, a.path ≠ b.path

instance : Std.Symm Apart := ⟨fun _ _ h b hb a ha heq => h a ha b hb heq.symm⟩

theorem conflicts_eq_nil_iff {fixes : List Fix}
    (hproper : ∀ fix ∈ fixes, ∀ op ∈ fix.operations, op.path.isProper = true) :
    conflicts fixes = [] ↔ fixes.Pairwise Apart := by
  have hlosers : conflicts fixes = [] ↔ ∀ j, j ∉ Workplace.losers fixes := by
    rw [← eq_nil_iff_forall_not_mem, Workplace.losers, map_eq_nil_iff]
  rw [hlosers, pairwise_iff_getElem]
  constructor
  · intro h i j hi hj hij a ha b hb heq
    have hfirst : Touches fixes i a.path := ⟨fixes[i], getElem?_eq_getElem hi, mem_map_of_mem ha⟩
    have hsecond : Touches fixes j b.path := ⟨fixes[j], getElem?_eq_getElem hj, mem_map_of_mem hb⟩
    exact h j (mem_losers hij hfirst (heq ▸ hsecond))
  · intro h j hj
    obtain ⟨path, i, ⟨g, hg, hsecond⟩, ⟨⟨f, hf, hfirst⟩, -⟩, hij⟩ := (mem_losers_iff hproper).mp hj
    obtain ⟨hi, rfl⟩ := List.getElem?_eq_some_iff.mp hf
    obtain ⟨hj, rfl⟩ := List.getElem?_eq_some_iff.mp hg
    obtain ⟨a, ha, rfl⟩ := mem_map.mp hfirst
    obtain ⟨b, hb, hpath⟩ := mem_map.mp hsecond
    exact h i j hi hj hij a ha b hb hpath.symm

/-! ## What stands where -/

section Settle

variable {v w : Json} {place : Path}

/-- What stands where after an operation, by what stood there before. -/
noncomputable def settle (σ : Path → Option Json) (op : Operation) : Path → Option Json :=
  open Classical in fun q => if q = op.path then (σ q).map op.change.result else σ q

/-- What stands where after some operations. -/
noncomputable def settleAll (σ : Path → Option Json) (ops : List Operation) : Path → Option Json := ops.foldl settle σ

variable {σ : Path → Option Json}

theorem settle_self (σ : Path → Option Json) (op : Operation) :
    settle σ op op.path = (σ op.path).map op.change.result := if_pos rfl

theorem settle_of_ne {op : Operation} {q : Path} (h : q ≠ op.path) : settle σ op q = σ q := if_neg h

/-- Operations at two places may change places. -/
theorem settle_comm {a b : Operation} (h : a.path ≠ b.path) : settle (settle σ a) b = settle (settle σ b) a := by
  funext q
  by_cases ha : q = a.path
  · subst ha
    rw [settle_of_ne h, settle_self, settle_self, settle_of_ne h]
  · by_cases hb : q = b.path
    · subst hb
      rw [settle_self, settle_of_ne ha, settle_of_ne ha, settle_self]
    · rw [settle_of_ne hb, settle_of_ne ha, settle_of_ne ha, settle_of_ne hb]

theorem settleAll_settle_comm {a : Operation} {ops : List Operation} (h : ∀ b ∈ ops, a.path ≠ b.path) :
    settleAll (settle σ a) ops = settle (settleAll σ ops) a := by
  induction ops generalizing σ with
  | nil => rfl
  | cons b ops ih =>
    obtain ⟨hb, hops⟩ := forall_mem_cons.mp h
    rw [settleAll, foldl_cons, settle_comm hb]
    exact ih hops

/-- Operations of fixes that are apart may change places. -/
theorem settleAll_comm {as bs : List Operation} (h : ∀ a ∈ as, ∀ b ∈ bs, a.path ≠ b.path) :
    settleAll (settleAll σ as) bs = settleAll (settleAll σ bs) as := by
  induction as generalizing σ with
  | nil => rfl
  | cons a as ih =>
    obtain ⟨ha, has⟩ := forall_mem_cons.mp h
    have hfirst : settleAll (settle σ a) bs = settle (settleAll σ bs) a := settleAll_settle_comm ha
    exact (ih has).trans (congrArg (settleAll · as) hfirst)

/-- Values stand where the single values of a document stand. -/
def Covers (σ : Path → Option Json) (v : Json) : Prop := ∀ q, (σ q).isSome = (v.leaf? q).isSome

theorem Covers.settle (h : Covers σ v) (op : Operation) : Covers (settle σ op) v := by
  intro q
  rw [← h q]
  by_cases hq : q = op.path
  · subst hq
    rw [settle_self, isSome_map]
  · rw [settle_of_ne hq]

theorem Covers.settleAll (h : Covers σ v) (ops : List Operation) : Covers (settleAll σ ops) v := by
  induction ops generalizing σ with
  | nil => exact h
  | cons op ops ih => exact ih (h.settle op)

theorem Covers.clearAbove (h : Covers σ v) (hat : v.At place w) : ClearAbove σ place := by
  intro q hq hne
  rw [← isNone_iff_eq_none, ← not_isSome, h q, hat.leaf?_eq_none hq hne]
  rfl

theorem Covers.exists_at (h : Covers σ v) (hat : v.At place w)
    (hw : w.isContainer = false) : ∃ x, σ place = some x := by
  rw [← isSome_iff_exists, h]
  simp [leaf?, hat.getAt, Except.toOption, hw]

theorem Covers.single (h : Covers σ v) (hat : v.At place w) {x : Json}
    (hx : σ place = some x) : w.isContainer = false := by
  have hleaf : (v.leaf? place).isSome = true := by rw [← h, hx]; rfl
  obtain ⟨y, hy⟩ := isSome_iff_exists.mp hleaf
  exact (hat.of_leaf? hy).2

end Settle

/-! ## Operations on a document -/

/-- An operation is about a value of a document, in an object or in an array; a value is set only where a
single one stands. -/
structure Addresses (v : Json) (op : Operation) : Prop where
  ne_nil : op.path ≠ []
  found : ∃ w, v.At op.path w ∧ (w.isContainer = true → ∃ old new, op.change = .replace old new)
  textual : op.change.isTextual = true

section Document

variable {v new old : Json} {σ : Path → Option Json} {op : Operation}

/-- Where a value is set, a single one stands. -/
theorem Addresses.exists_at (hop : Addresses v op) (hcovers : Covers σ v)
    (hchange : op.change = .set old new) : ∃ x, σ op.path = some x := by
  obtain ⟨w, hat, hw⟩ := hop.found
  cases hsingle : w.isContainer with
  | false => exact hcovers.exists_at hat hsingle
  | true =>
    obtain ⟨_, _, heq⟩ := hw hsingle
    cases hchange.symm.trans heq

theorem setAt_settled (hdoc : v.isDocument = true) (hcovers : Covers σ v) (hop : Addresses v op)
    (hnew : settle σ op op.path = some new) : (v.graft σ).setAt op.path new = .ok (v.graft (settle σ op)) := by
  obtain ⟨w, hat, -⟩ := hop.found
  exact put_graft hat hdoc hop.ne_nil (hcovers.clearAbove hat) hnew fun q hq => settle_of_ne hq

/-- An operation that changes nothing at its place changes nothing. -/
theorem settle_eq_self (h : (σ op.path).map op.change.result = σ op.path) : settle σ op = σ := by
  funext q
  by_cases hq : q = op.path
  · rw [hq, settle_self, h]
  · exact settle_of_ne hq

/-- An object or an array stays one. -/
theorem isContainer_graft {w : Json} (hw : w.isContainer = true) (hnil : σ [] = none) :
    (w.graft σ).isContainer = true := by
  cases w with
  | arr items => rw [graft_arr hnil]; rfl
  | obj kind fields => rw [graft_obj hnil]; rfl
  | _ => cases hw

/-- What a replacement does to the value that stands at its place. -/
theorem replaceAt?_settled (hdoc : v.isDocument = true) (hcovers : Covers σ v) (hop : Addresses v op)
    (hchange : op.change = .replace old new) :
    (v.graft σ).replaceAt? op.path old new = .ok none ∧ settle σ op = σ ∨
      (v.graft σ).replaceAt? op.path old new = .ok (some (v.graft (settle σ op))) ∧
        ∃ x, settle σ op op.path = some x := by
  have htext := hop.textual
  rw [hchange] at htext
  cases old <;> cases new <;> simp only [Change.isTextual, Bool.false_eq_true] at htext
  case str.str old new =>
  obtain ⟨w, hat, -⟩ := hop.found
  cases hx : σ op.path with
  | none =>
    -- an object or an array stands there
    have hw : w.isContainer = true := by
      rw [← Bool.not_eq_false]
      intro hw
      obtain ⟨x, hx'⟩ := hcovers.exists_at hat hw
      cases hx.symm.trans hx'
    have hget := (at_graft hat (hcovers.clearAbove hat)).getAt
    have hcontainer := isContainer_graft (σ := fun q => σ (op.path ++ q)) hw (by rwa [append_nil])
    refine .inl ⟨?_, settle_eq_self (by rw [hx]; rfl)⟩
    rw [replaceAt?, hget]
    cases hu : w.graft fun q => σ (op.path ++ q) with
    | arr _ | obj _ _ => rfl
    | _ => rw [hu] at hcontainer; cases hcontainer
  | some x =>
    have hget : (v.graft σ).getAt op.path = .ok x := (hat.graft_some (hcovers.clearAbove hat) hx).getAt
    cases x with
    | str s =>
      cases hholds : Text.holds s old with
      | false =>
        refine .inl ⟨?_, settle_eq_self (by rw [hx, hchange]; simp [Change.result, hholds])⟩
        simp [replaceAt?, hget, exchange?, hholds, bind, Except.bind, pure, Except.pure]
      | true =>
        have hnew : settle σ op op.path = some (.str (Text.replace old new s)) := by
          rw [settle_self, hx, hchange]
          simp [Change.result, hholds]
        have hset := setAt_settled hdoc hcovers hop hnew
        refine .inr ⟨?_, _, hnew⟩
        simp [replaceAt?, hget, exchange?, hholds, hset, bind, Except.bind, pure, Except.pure]
    | _ =>
      refine .inl ⟨?_, settle_eq_self (by rw [hx, hchange]; rfl)⟩
      simp [replaceAt?, hget, bind, Except.bind, pure, Except.pure]

/-- **An operation on a document** changes what stands at its place. -/
theorem applyOperation_graft (hdoc : v.isDocument = true) (hcovers : Covers σ v) (hop : Addresses v op) :
    applyOperation (v.graft σ) op = .ok (v.graft (settle σ op)) := by
  rw [applyOperation]
  cases hchange : op.change with
  | set old new =>
    obtain ⟨x, hx⟩ := hop.exists_at hcovers hchange
    exact setAt_settled hdoc hcovers hop (by rw [settle_self, hx, hchange]; rfl)
  | replace old new =>
    obtain ⟨hnone, hsame⟩ | ⟨hsome, -⟩ := replaceAt?_settled hdoc hcovers hop hchange
    · simp only [hnone, hsame]
      rfl
    · simp only [hsome]
      rfl

theorem applyOperations_graft (hdoc : v.isDocument = true) {ops : List Operation} (hcovers : Covers σ v)
    (hops : ∀ op ∈ ops, Addresses v op) :
    applyOperations (v.graft σ) ops = (v.graft (settleAll σ ops), none) := by
  induction ops generalizing σ with
  | nil => rfl
  | cons op ops ih =>
    obtain ⟨hop, hops⟩ := forall_mem_cons.mp hops
    rw [applyOperations, applyOperation_graft hdoc hcovers hop]
    exact ih (hcovers.settle op) hops

end Document

end Fix

/-! ## Operations on a bench -/

namespace Json

variable {a b : Json}

theorem equals_self_of_isStep (h : a.isStep = true) : a.equals a = true := by
  cases a <;> simp only [isStep, Bool.false_eq_true] at h
  case str s => simp [equals]
  case int n => simp [equals, compareNumbers?, number?, Number.compare?]

theorem eq_of_equals (ha : a.isStep = true) (hb : b.isStep = true) (h : a.equals b = true) : a = b := by
  cases a <;> cases b <;> simp only [isStep, Bool.false_eq_true] at ha hb
  case str.str s t => simpa [equals] using h
  case str.int s n => simp [equals, compareNumbers?, number?] at h
  case int.str n s => simp [equals, compareNumbers?, number?] at h
  case int.int m n => simpa [equals, compareNumbers?, number?, Number.compare?] using h

/-- A place is a path in which indices are counted from the start. -/
theorem At.plainPath_eq {v w : Json} {place : Path} (h : v.At place w) : v.plainPath place = place := by
  induction h with
  | here => rfl
  | @field kind fields key w u place hget _ ih =>
    have hpart : Json.part [] (.obj kind fields) (.str key) = .ok w := At.part (.field hget (.here w)) []
    simp only [plainPath, hpart, ih]
  | @item items i w u place hget _ ih =>
    have hpart : Json.part [] (.arr items) (.int i) = .ok w := At.part (.item hget (.here w)) []
    simp only [plainPath, hpart, itemPosition_of_getElem? hget, ih]
    rfl

end Json

namespace Path

theorem after?_eq_some {start path rest : Path} (hstart : start.isProper = true) (hpath : path.isProper = true)
    (h : after? start path = some rest) : path = start ++ rest := by
  induction start generalizing path with
  | nil => cases h; rfl
  | cons a start ih =>
    cases path with
    | nil => cases h
    | cons b path =>
      simp only [isProper, all_cons, Bool.and_eq_true] at hstart hpath
      rw [after?] at h
      split at h
      · next heq => rw [Json.eq_of_equals hstart.1 hpath.1 heq, ih hstart.2 hpath.2 h, cons_append]
      · cases h

theorem after?_self {path : Path} (h : path.isProper = true) : after? path path = some [] := by
  induction path with
  | nil => rfl
  | cons a path ih =>
    simp only [isProper, all_cons, Bool.and_eq_true] at h
    rw [after?, if_pos (Json.equals_self_of_isStep h.1), ih h.2]

end Path

namespace Bench

variable {fix : Fix} {op : Operation}

open Json ViewLint.Fix

theorem content_of_nil (b : Bench) (n : Nat) (x : Json) : b.content n ⟨x, []⟩ = x := by cases n <;> rfl

theorem mem_values_ofFixes {fixes : List Fix} {doc : Json} {i j : Nat} {h : Holder} :
    ((i, j), h) ∈ (ofFixes fixes doc).values ↔ ∃ fix op old new, fixes[i]? = some fix ∧
      fix.operations[j]? = some op ∧ op.change = .set old new ∧ h = ⟨new, []⟩ := by
  simp only [ofFixes, mem_flatMap, mem_filterMap]
  constructor
  · rintro ⟨⟨fix, i'⟩, hfix, ⟨op, j'⟩, hop, heq⟩
    rw [mem_zipIdx_iff_getElem?] at hfix hop
    cases hchange : op.change with
    | set old new =>
      simp only [hchange, some.injEq, Prod.mk.injEq] at heq
      obtain ⟨⟨rfl, rfl⟩, rfl⟩ := heq
      exact ⟨fix, op, old, new, hfix, hop, hchange, rfl⟩
    | replace old new => simp [hchange] at heq
  · rintro ⟨fix, op, old, new, hfix, hop, hchange, rfl⟩
    refine ⟨(fix, i), mem_zipIdx_iff_getElem?.mpr hfix, (op, j), mem_zipIdx_iff_getElem?.mpr hop, ?_⟩
    simp only [hchange]

/-- Before anything is done, the value of an operation is what it sets. -/
theorem holder_ofFixes {fixes : List Fix} {doc : Json} {i j : Nat} {old new : Json}
    (hfix : fixes[i]? = some fix) (hop : fix.operations[j]? = some op) (hchange : op.change = .set old new) :
    (ofFixes fixes doc).holder (some (i, j)) = ⟨new, []⟩ := by
  have hmem : ((i, j), (⟨new, []⟩ : Holder)) ∈ (ofFixes fixes doc).values :=
    mem_values_ofFixes.mpr ⟨fix, op, old, new, hfix, hop, hchange, rfl⟩
  have hsome := (Fields.mem_keys_iff _ _).mp (mem_map_of_mem (f := Prod.fst) hmem)
  obtain ⟨h, hget⟩ := isSome_iff_exists.mp hsome
  obtain ⟨fix', op', old', new', hfix', hop', hchange', rfl⟩ := mem_values_ofFixes.mp (Fields.mem_of_get?_eq_some hget)
  cases hfix.symm.trans hfix'
  cases hop.symm.trans hop'
  cases hchange.symm.trans hchange'
  rw [holder, hget]
  rfl

/-- A bench holds a document with values at its places, and the values of operations as they were. -/
structure Reflects (b : Bench) (fixes : List Fix) (v : Json) (σ : Path → Option Json) : Prop where
  values_eq : b.values = (ofFixes fixes v).values
  value_eq : b.doc.value = v.graft σ
  links : ∀ l ∈ b.doc.links, (∃ w, v.At l.1 w ∧ w.isContainer = false) ∧
    ∃ x, σ l.1 = some x ∧ b.holder (some l.2) = ⟨x, []⟩

namespace Reflects

variable {b : Bench} {fixes : List Fix} {v : Json} {σ : Path → Option Json}

/-- A place of the document lies in no value of an operation. -/
theorem owner_eq (h : b.Reflects fixes v σ) {place : Path} {w : Json} (hat : v.At place w) :
    b.owner b.depth none place = (none, place) := by
  rw [depth, owner]
  split
  · next id rest hfound =>
    obtain ⟨⟨start, id⟩, hl, hlink⟩ := exists_of_findSome?_eq_some hfound
    obtain ⟨⟨u, hu, hsingle⟩, -⟩ := h.links _ hl
    simp only at hlink
    split at hlink
    · next step rest hafter =>
      rw [Path.after?_eq_some hu.isProper hat.isProper hafter] at hat
      obtain ⟨u', hu', hrest⟩ := at_append_iff.mp hat
      cases hu.unique hu'
      exact absurd hrest (not_at_cons_of_single hsingle)
    · cases hlink
  · rfl

variable (hdoc : v.isDocument = true) (hroot : v.isContainer = true) (hcovers : Covers σ v)

include hdoc hroot hcovers

/-- Values of operations that stand in the document are there already. -/
theorem document_eq (h : b.Reflects fixes v σ) : b.document = v.graft σ := by
  have hfold (links : List (Path × OperationId)) (hsub : links ⊆ b.doc.links) :
      links.foldl (fun doc l => (doc.setAt l.1 (content b b.values.length (b.holder (some l.2)))).toOption.getD doc)
        (v.graft σ) = v.graft σ := by
    induction links with
    | nil => rfl
    | cons l links ih =>
      obtain ⟨hl, hsub⟩ := cons_subset.mp hsub
      obtain ⟨⟨w, hat, hw⟩, x, hx, hholder⟩ := h.links l hl
      have hne : l.1 ≠ [] := hat.ne_nil hroot hw
      have hset : (v.graft σ).setAt l.1 x = .ok (v.graft σ) :=
        put_graft hat hdoc hne (hcovers.clearAbove hat) hx fun q _ => rfl
      rw [foldl_cons, hholder, content_of_nil, hset]
      exact ih hsub
  rw [document, depth, content, h.value_eq]
  exact hfold b.doc.links (Subset.refl _)

/-- One more value is put at a place of the document. -/
theorem put (h : b.Reflects fixes v σ) (hop : Addresses v op) {new : Json}
    (hnew : settle σ op op.path = some new) {id? : Option OperationId} (hid : ∀ id ∈ id?, b.holder (some id) = ⟨new, []⟩) :
    (b.put op.path new id?).Reflects fixes v (settle σ op) := by
  obtain ⟨w, hat, -⟩ := hop.found
  have hw : w.isContainer = false := (hcovers.settle op).single hat hnew
  obtain ⟨x, hx⟩ := hcovers.exists_at hat hw
  have hplain : b.document.plainPath op.path = op.path := by
    rw [h.document_eq hdoc hroot hcovers]
    exact (hat.graft_some (hcovers.clearAbove hat) hx).plainPath_eq
  have hput : b.put op.path new id? = { b with doc := ⟨v.graft (settle σ op),
      (b.doc.links.filter fun l => (Path.after? op.path l.1).isNone) ++ id?.toList.map (op.path, ·)⟩ } := by
    rw [Bench.put, hplain, h.owner_eq hat]
    simp only [holder, setHolder, h.value_eq, setAt_settled hdoc hcovers hop hnew]
    rfl
  rw [hput]
  refine ⟨h.values_eq, rfl, fun l hl => ?_⟩
  obtain hl | hl := mem_append.mp hl
  · obtain ⟨hl, hafter⟩ := mem_filter.mp hl
    obtain ⟨hplace, y, hy, hholder⟩ := h.links l hl
    have hne : l.1 ≠ op.path := fun heq => by
      rw [heq, Path.after?_self hat.isProper] at hafter
      cases hafter
    exact ⟨hplace, y, (settle_of_ne hne).trans hy, hholder⟩
  · obtain ⟨id, hmem, rfl⟩ := mem_map.mp hl
    exact ⟨⟨w, hat, hw⟩, new, hnew, hid id (mem_toList.mp hmem)⟩

theorem applyOperation (h : b.Reflects fixes v σ) {i j : Nat} (hfix : fixes[i]? = some fix)
    (hmem : fix.operations[j]? = some op) (hop : Addresses v op) :
    ∃ b', b.applyOperation (i, j) op = .ok b' ∧ b'.Reflects fixes v (settle σ op) := by
  rw [Bench.applyOperation]
  cases hchange : op.change with
  | set old new =>
    obtain ⟨x, hx⟩ := hop.exists_at hcovers hchange
    have hholder : b.holder (some (i, j)) = ⟨new, []⟩ := by
      rw [holder, h.values_eq]
      exact holder_ofFixes hfix hmem hchange
    have hvalue : b.value (i, j) = new := by rw [value, hholder, content_of_nil]
    have hnew : settle σ op op.path = some new := by rw [settle_self, hx, hchange]; rfl
    simp only [hvalue, h.document_eq hdoc hroot hcovers, setAt_settled hdoc hcovers hop hnew]
    refine ⟨_, rfl, h.put hdoc hroot hcovers hop hnew fun id hid => ?_⟩
    split at hid
    · cases hid
      exact hholder
    · cases hid
  | replace old new =>
    simp only [h.document_eq hdoc hroot hcovers]
    obtain ⟨hnone, hsame⟩ | ⟨hsome, x, hx⟩ := replaceAt?_settled hdoc hcovers hop hchange
    · exact ⟨b, by rw [hnone]; rfl, by rwa [hsame]⟩
    · obtain ⟨w, hat, -⟩ := hop.found
      have hget := (hat.graft_some ((hcovers.settle op).clearAbove hat) hx).getAt
      refine ⟨b.put op.path x none, ?_, h.put hdoc hroot hcovers hop hx nofun⟩
      simp only [hsome, bind, Except.bind, hget]
      rfl

theorem applyOperations (h : b.Reflects fixes v σ) {i : Nat} (hfix : fixes[i]? = some fix)
    {ops : List (Operation × Nat)} (hops : ∀ f ∈ ops, fix.operations[f.2]? = some f.1 ∧ Addresses v f.1) :
    ∃ b', b.applyOperations i ops = (b', none) ∧ b'.Reflects fixes v (settleAll σ (ops.map (·.1))) := by
  induction ops generalizing b σ with
  | nil => exact ⟨b, rfl, h⟩
  | cons f ops ih =>
    obtain ⟨⟨hmem, hop⟩, hops⟩ := forall_mem_cons.mp hops
    obtain ⟨next, hnext, hreflects⟩ := h.applyOperation hdoc hroot hcovers hfix hmem hop
    rw [Bench.applyOperations, hnext]
    exact ih (hcovers.settle f.1) hreflects hops

end Reflects

end Bench

namespace Fix

open Json

/-! ## Runs -/

noncomputable def settleEach (σ : Path → Option Json) (fixes : List Fix) : Path → Option Json :=
  fixes.foldl (fun σ fix => settleAll σ fix.operations) σ

def Outcome.appliedOf (o : Outcome) (fixes : List Fix) : List Fix := o.applied.filterMap (fixes[·]?)

theorem Outcome.Follows.eq_of_failed {o announced : Outcome} (h : o.Follows announced) (hfailed : o.failed = []) :
    o = announced := by
  have hskipped : o.skipped.filter (fun s => !isFailure s.2) = o.skipped := by
    refine filter_eq_self.mpr fun s hs => ?_
    have := filter_eq_nil_iff.mp (map_eq_nil_iff.mp hfailed) s hs
    simpa using this
  cases o
  cases announced
  simp only [Outcome.mk.injEq]
  refine ⟨?_, hskipped.symm.trans h.skipped, h.conflicts⟩
  have happlied := h.applied
  rw [hfailed] at happlied
  simpa using happlied

namespace Workplace

/-- **A run ends as its preview says**, if each fix can be carried out on what those before it leave. -/
theorem applyAll_preview {α : Type} {w : Workplace α} {R : α → (Path → Option Json) → Prop} (sel : Selection)
    {fixes : List Fix} (hattempt : ∀ i fix s σ, fixes[i]? = some fix → R s σ →
      ∃ t, w.attempt s i fix = (t, none) ∧ R t (settleAll σ fix.operations))
    {s : α} {σ : Path → Option Json} (hs : R s σ) :
    ∃ t, w.applyAll sel fixes s = .ok (t, preview sel fixes) ∧
      R t (settleEach σ ((preview sel fixes).appliedOf fixes)) := by
  have hrun : ∃ p, w.progressAt sel fixes s fixes.length = .ok p ∧
      R p.doc (settleEach σ (p.outcome.appliedOf fixes)) ∧ p.outcome.failed = [] := by
    refine run_induction (P := fun _ p => R p.doc (settleEach σ (p.outcome.appliedOf fixes)) ∧ p.outcome.failed = [])
      ⟨hs, rfl⟩ ?_ (Nat.le_refl _)
    rintro k fix p hfix - ⟨hp, hfailed⟩
    cases hskip : skipReason? sel (losers fixes) k fix with
    | some reason =>
      refine ⟨_, step_of_skipReason hskip, hp, ?_⟩
      rw [Outcome.failed_skip, hfailed, isFailure_of_skipReason? hskip]
      rfl
    | none =>
      obtain ⟨t, ht, hnext⟩ := hattempt k fix p.doc _ hfix hp
      refine ⟨_, step_of_runs hskip (w.attempt_eq_none_iff.mp ht), ?_, hfailed⟩
      simp only [Outcome.appliedOf, filterMap_append, filterMap_cons, hfix, filterMap_nil, settleEach, foldl_append]
      exact hnext
  obtain ⟨p, hp, hR, hfailed⟩ := hrun
  have hall : w.applyAll sel fixes s = .ok (p.doc, p.outcome) := by
    rw [applyAll_eq_progressAt, hp]
    rfl
  have hpreview := (follows_preview hall).eq_of_failed hfailed
  rw [← hpreview]
  exact ⟨p.doc, hall, hR⟩

end Workplace

/-- **Without a conflict all fixes are announced.** -/
theorem preview_of_free {fixes : List Fix} (hfree : conflicts fixes = []) :
    preview { safeOnly := false } fixes = { applied := range fixes.length } := by
  have hfold (l : List (Fix × Nat)) (o : Outcome) :
      l.foldl (Workplace.foresee { safeOnly := false } fixes) o = { o with applied := o.applied ++ l.map (·.2) } := by
    induction l generalizing o with
    | nil => simp
    | cons f l ih =>
      have hnone : skipReason? { safeOnly := false } (Workplace.losers fixes) f.2 f.1 = none := by
        rw [Workplace.losers, hfree]
        rfl
      rw [foldl_cons, ih, Workplace.foresee, hnone]
      simp [Outcome.apply]
  rw [Workplace.preview_eq, hfold, hfree, zipIdx_map_snd, range_eq_range']
  rfl

theorem appliedOf_complete (fixes : List Fix) :
    Outcome.appliedOf { applied := range fixes.length } fixes = fixes := by
  have hrange : (range fixes.length).map (fixes[·]?) = fixes.map some :=
    ext_getElem (by simp) fun i hi _ => by simp [getElem?_eq_getElem (l := fixes) (i := i) (by simpa using hi)]
  calc (range fixes.length).filterMap (fixes[·]?)
      = ((range fixes.length).map (fixes[·]?)).filterMap id := by rw [filterMap_map]; rfl
    _ = (fixes.map some).filterMap id := by rw [hrange]
    _ = fixes := by simp

theorem settleEach_perm {fixes order : List Fix} (hapart : fixes.Pairwise Apart) (hperm : order.Perm fixes)
    (σ : Path → Option Json) : settleEach σ order = settleEach σ fixes := by
  refine (hperm.symm.foldl_eq' (fun f hf g hg ρ => ?_) σ).symm
  by_cases heq : f = g
  · rw [heq]
  · exact settleAll_comm (hapart.forall hf hg heq)

theorem graft_leaf? {doc : Json} (hdoc : doc.isDocument = true) : doc.graft doc.leaf? = doc :=
  graft_self hdoc fun _ _ _ hx hat => (hat.of_leaf? hx).1

theorem covers_leaf? (doc : Json) : Covers doc.leaf? doc := fun _ => rfl

/-- The document with some fixes applied, by what stands at its places. -/
noncomputable def settled (doc : Json) (fixes : List Fix) : Json := doc.graft (settleEach doc.leaf? fixes)

section Runs

variable {doc : Json} {fixes : List Fix} (hdoc : doc.isDocument = true)
  (hops : ∀ fix ∈ fixes, ∀ op ∈ fix.operations, Addresses doc op)

include hdoc hops

theorem applyAll_settled (sel : Selection) :
    applyAll sel fixes doc = .ok (settled doc ((preview sel fixes).appliedOf fixes), preview sel fixes) := by
  obtain ⟨t, hrun, -, rfl⟩ := Workplace.applyAll_preview (w := .plain)
    (R := fun s σ => Covers σ doc ∧ s = doc.graft σ) sel (fun i fix s σ hfix hs => by
      obtain ⟨hcovers, rfl⟩ := hs
      exact ⟨_, applyOperations_graft hdoc hcovers (hops fix (mem_of_getElem? hfix)), hcovers.settleAll _, rfl⟩)
    ⟨covers_leaf? doc, (graft_leaf? hdoc).symm⟩
  exact hrun

theorem bench_settled (hroot : doc.isContainer = true) (sel : Selection) :
    ∃ b, Bench.applyAll sel fixes (Bench.ofFixes fixes doc) = .ok (b, preview sel fixes) ∧
      b.document = settled doc ((preview sel fixes).appliedOf fixes) := by
  obtain ⟨b, hrun, hcovers, hb⟩ := Workplace.applyAll_preview (w := .bench)
    (R := fun b σ => Covers σ doc ∧ b.Reflects fixes doc σ) (s := Bench.ofFixes fixes doc) sel
    (fun i fix b σ hfix hs => by
      obtain ⟨hcovers, hb⟩ := hs
      have hnumbered : ∀ f ∈ fix.operations.zipIdx, fix.operations[f.2]? = some f.1 ∧ Addresses doc f.1 :=
        fun f hf => ⟨mem_zipIdx_iff_getElem?.mp hf, hops fix (mem_of_getElem? hfix) f.1 (fst_mem_of_mem_zipIdx hf)⟩
      obtain ⟨b', hb', hnext⟩ := hb.applyOperations hdoc hroot hcovers hfix hnumbered
      rw [zipIdx_map_fst] at hnext
      exact ⟨b', hb', hcovers.settleAll _, hnext⟩)
    ⟨covers_leaf? doc, rfl, (graft_leaf? hdoc).symm, nofun⟩
  exact ⟨b, hrun, hb.document_eq hdoc hroot hcovers⟩

end Runs

/-- **Fixes without a conflict may come in any order.** If every operation is about a single value of the
document and no two fixes are in conflict, then in every order of the fixes all are applied, and the
document that is left is the same; so it is if the values that operations put into the document stay
their own. -/
theorem any_order (doc : Json) (fixes : List Fix) (hdoc : doc.isDocument = true) (hroot : doc.isContainer = true)
    (hleaf : ∀ fix ∈ fixes, ∀ op ∈ fix.operations, ∃ w, doc.At op.path w ∧ w.isContainer = false)
    (htextual : ∀ fix ∈ fixes, ∀ op ∈ fix.operations, op.change.isTextual = true) (hfree : conflicts fixes = []) :
    ∃ result, ∀ order : List Fix, order.Perm fixes →
      applyAll { safeOnly := false } order doc = .ok (result, { applied := range order.length }) ∧
      ∃ b, Bench.applyAll { safeOnly := false } order (Bench.ofFixes order doc) =
          .ok (b, { applied := range order.length }) ∧ b.document = result := by
  have hproper (l : List Fix) (hl : l ⊆ fixes) : ∀ fix ∈ l, ∀ op ∈ fix.operations, op.path.isProper = true := by
    intro fix hfix op hop
    obtain ⟨w, hat, -⟩ := hleaf fix (hl hfix) op hop
    exact hat.isProper
  have hapart : fixes.Pairwise Apart := (conflicts_eq_nil_iff (hproper fixes fun _ => id)).mp hfree
  refine ⟨settled doc fixes, fun order hperm => ?_⟩
  have hops : ∀ fix ∈ order, ∀ op ∈ fix.operations, Addresses doc op := by
    intro fix hfix op hop
    have hmem := hperm.subset hfix
    obtain ⟨w, hat, hw⟩ := hleaf fix hmem op hop
    exact ⟨hat.ne_nil hroot hw, ⟨w, hat, fun h => by cases hw.symm.trans h⟩, htextual fix hmem op hop⟩
  have horder : conflicts order = [] := by
    rw [conflicts_eq_nil_iff (hproper order hperm.subset)]
    exact (hperm.pairwise_iff (Std.Symm.symm _ _)).mpr hapart
  have hsame : settled doc order = settled doc fixes := by rw [settled, settled, settleEach_perm hapart hperm]
  have hrun := applyAll_settled hdoc hops { safeOnly := false }
  have hbench := bench_settled hdoc hops hroot { safeOnly := false }
  rw [preview_of_free horder, appliedOf_complete, hsame] at hrun hbench
  exact ⟨hrun, hbench⟩

/-- A text and two numbers. -/
def tray : Json := .obj .plain [(.name "a", .str "x y"), (.name "b", .arr [.int 1, .int 2])]

/-- A fix that changes a text twice and puts an array in the place of a number, and one that changes the
other number. -/
def apart : List Fix :=
  [{ rule := .str "R", violation := "v", description := "d", safe := false
     operations := [⟨[.str "a"], .replace (.str "x") (.str "y"), ""⟩, ⟨[.str "a"], .replace (.str "y") (.str "zy"), ""⟩,
       ⟨[.str "b", .int 1], .set (.int 2) (.arr [.int 3]), ""⟩] },
   { rule := .str "S", violation := "v", description := "d"
     operations := [⟨[.str "b", .int 0], .set (.int 1) (.str "w"), ""⟩] }]

theorem any_order_apart : conflicts apart = [] ∧ ∃ result, ∀ order : List Fix, order.Perm apart →
    applyAll { safeOnly := false } order tray = .ok (result, { applied := range order.length }) ∧
    ∃ b, Bench.applyAll { safeOnly := false } order (Bench.ofFixes order tray) =
        .ok (b, { applied := range order.length }) ∧ b.document = result := by
  have ha : tray.At [.str "a"] (.str "x y") := .field rfl (.here _)
  have hb (i : Nat) (n : Int) (h : [Json.int 1, .int 2][i]? = some (.int n)) : tray.At [.str "b", .int i] (.int n) :=
    .field rfl (.item h (.here _))
  refine ⟨rfl, any_order tray apart rfl rfl ?_ (by decide) rfl⟩
  simp only [apart, forall_mem_cons, not_mem_nil, false_imp_iff, implies_true, and_true]
  exact ⟨⟨⟨_, ha, rfl⟩, ⟨_, ha, rfl⟩, _, hb 1 2 rfl, rfl⟩, _, hb 0 1 rfl, rfl⟩

end Fix

end ViewLint
