import ViewLint.Proofs.StoredText

/-!
# Characters of stored documents

Between its names and texts, a stored document is made of a few characters, and its numbers of a few more.
So what holds of all its characters is told by its names and texts.

* `Json.strings`: the names and texts of a value.
* **`Json.all_stored`**: a test of the characters of a stored document.
-/

namespace ViewLint.Json

open View List CodePoint

mutual

def strings : Json → List Text
  | .str s => [s]
  | .arr items => stringsOfItems items
  | .obj _ fields => stringsOfFields fields
  | _ => []

def stringsOfItems : List Json → List Text
  | [] => []
  | x :: rest => strings x ++ stringsOfItems rest

def stringsOfFields : List (Key × Json) → List Text
  | [] => []
  | (k, v) :: rest => keyText k :: strings v ++ stringsOfFields rest

end

/-- The characters that stand between the strings and numbers of a stored document, or in the words. -/
def frame : Text := "\n \",:[]\x7b\x7dnultrefas"

section

variable {depth : Nat} {p : CodePoint → Bool} {q : Text → Bool} (hframe : ∀ c ∈ frame, p c = true)
  (htext : ∀ s, (s.flatMap storedChar).all p = q s) (hnumeric : ∀ c, isNumeric c = true → p c = true)

include hframe

theorem all_storedLine (depth : Nat) : (storedLine depth).all p = true := by
  refine all_eq_true.mpr fun c hc => ?_
  obtain rfl | rfl := mem_storedLine hc <;> exact hframe _ (by decide)

theorem all_cons_frame {c : CodePoint} (hc : c ∈ frame) (s : Text) : all (c :: s) p = s.all p := by
  rw [all_cons, hframe c hc, Bool.true_and]

theorem all_storedItems {xs : List Json} (h : ∀ x ∈ xs, (stored depth x).all p = x.strings.all q) :
    (storedItems depth xs).all p = (stringsOfItems xs).all q := by
  induction xs with
  | nil => rfl
  | cons x xs ih =>
    obtain ⟨hx, hxs⟩ := forall_mem_cons.mp h
    rw [storedItems_cons, all_cons_frame hframe (by decide), all_append, all_storedLine hframe, all_append,
      hx, ih hxs, stringsOfItems, all_append, Bool.true_and]

include htext

theorem all_stringText (s : Text) : (escapeMarkup (stringText false s)).all p = q s := by
  rw [escapeMarkup_stringText, all_cons_frame hframe (by decide), all_append,
    all_cons_frame hframe (by decide), all_nil, Bool.and_true, htext]

theorem all_storedField {key : Text} {v : Json} (h : (stored depth v).all p = v.strings.all q) :
    (storedField depth (.name key, v)).all p = (key :: v.strings).all q := by
  have hfield : storedField depth (.name key, v) =
      escapeMarkup (stringText false key) ++ .char ':' :: .char ' ' :: stored depth v := by
    rw [storedField_name, escapeMarkup_stringText]
    simp
  rw [hfield, all_append, all_stringText hframe htext, all_cons_frame hframe (by decide),
    all_cons_frame hframe (by decide), h, all_cons]

theorem all_storedFields {pairs : List (Text × Json)} (h : ∀ f ∈ pairs, (stored depth f.2).all p = f.2.strings.all q) :
    (storedFields depth (named pairs)).all p = (stringsOfFields (named pairs)).all q := by
  induction pairs with
  | nil => rfl
  | cons f pairs ih =>
    obtain ⟨hf, hpairs⟩ := forall_mem_cons.mp h
    rw [named_cons, storedFields_cons, all_cons_frame hframe (by decide), all_append, all_storedLine hframe,
      all_append, all_storedField hframe htext hf, ih hpairs, stringsOfFields, all_append, Bool.true_and]
    rfl

include hnumeric

theorem all_stored {v : Json} (hdoc : v.isDocument = true) (depth : Nat) :
    (stored depth v).all p = v.strings.all q := by
  have hself {s : Text} (h : ∀ c ∈ s, isNumeric c = true) : (escapeMarkup s).all p = true := by
    rw [escapeMarkup_of_plain fun c hc => isPlain_of_isNumeric (h c hc)]
    exact all_eq_true.mpr fun c hc => hnumeric c (h c hc)
  have hword {s : Text} (h : ∀ c ∈ s, c ∈ frame) : s.all p = true :=
    all_eq_true.mpr fun c hc => hframe c (h c hc)
  induction v using parts_induction generalizing depth with
  | single v hv =>
    cases v with
    | null => exact hword (s := "null") (by decide)
    | bool b =>
      cases b with
      | true => exact hword (s := "true") (by decide)
      | false => exact hword (s := "false") (by decide)
    | int n => exact hself fun c => isNumeric_of_mem_intText n
    | float x => exact hself (isNumeric_of_mem_floatText x)
    | str s => exact (all_stringText hframe htext s).trans (Bool.and_true _).symm
    | arr _ | obj _ _ => cases hv
  | arr items ih =>
    cases items with
    | nil => exact hword (s := "[]") (by decide)
    | cons x xs =>
      have hitem (y : Json) (hy : y ∈ x :: xs) := ih y hy (isDocumentItems_eq_true_iff.mp hdoc y hy) (depth + 1)
      obtain ⟨hx, hxs⟩ := forall_mem_cons.mp hitem
      rw [stored_arr, all_cons_frame hframe (by decide), all_append, all_storedLine hframe, all_append,
        all_append, hx, all_storedItems hframe hxs, all_append, all_storedLine hframe,
        all_cons_frame hframe (by decide), all_nil, Bool.true_and, Bool.true_and, Bool.and_true, strings,
        stringsOfItems, all_append]
  | obj kind fields ih =>
    obtain ⟨pairs, rfl, -⟩ := exists_named hdoc
    cases pairs with
    | nil => exact hword (s := "\x7b\x7d") (by decide)
    | cons f pairs =>
      have hfield (r : Text × Json) (hr : r ∈ f :: pairs) : (stored (depth + 1) r.2).all p = r.2.strings.all q := by
        have hmem : ((Key.name r.1, r.2) : Key × Json) ∈ named (f :: pairs) := mem_map.mpr ⟨r, hr, rfl⟩
        exact ih _ hmem (isDocument_of_get? hdoc (get?_of_mem hdoc hmem)) _
      obtain ⟨hf, hpairs⟩ := forall_mem_cons.mp hfield
      rw [named_cons, stored_obj, all_cons_frame hframe (by decide), all_append, all_storedLine hframe, all_append,
        all_append, all_storedField hframe htext hf, all_storedFields hframe htext hpairs, all_append,
        all_storedLine hframe, all_cons_frame hframe (by decide), all_nil, Bool.true_and, Bool.true_and,
        Bool.and_true, strings, stringsOfFields, all_append]
      rfl

end

def escapeMarks : Text := "\\\"nrtfbu0123456789abcdef"

/-- A character stands for itself, or a character is written as an escape. -/
theorem storedChar_cases (c : CodePoint) :
    storedChar c = [c] ∧ 32 ≤ c.toNat ∨ c.isChar = true ∧ ∀ x ∈ storedChar c, x ∈ escapeMarks := by
  rw [storedChar]
  fun_cases escapeChar false c with
  | case1 h | case2 _ h | case3 _ _ h | case4 _ _ _ h | case5 _ _ _ _ h =>
    obtain rfl := eq_of_beq h
    exact .inr (by decide)
  | case6 _ _ _ _ _ _ h | case7 _ _ _ _ _ _ _ h =>
    obtain rfl := eq_ofNat h
    exact .inr (by decide)
  | case8 n _ _ _ _ _ _ _ h =>
    have hall : ∀ n < 32, (ofNat n).isChar = true ∧ ∀ x ∈ escapeMarkup (unitEscape n), x ∈ escapeMarks := by decide
    have hc := hall _ h
    rw [c.ofNat_toNat] at hc
    exact .inr hc
  | case9 n _ _ _ _ _ _ _ hcontrol =>
    cases hlook : markupEscapes.lookup c with
    | some s =>
      have hall : ∀ p ∈ markupEscapes, p.1.isChar = true ∧ ∀ x ∈ p.2, x ∈ escapeMarks := by decide
      have hmarkup : escapeMarkup [c] = s := by simp [escapeMarkup, hlook]
      rw [hmarkup]
      exact .inr (hall _ (mem_markupEscapes hlook))
    | none => exact .inl ⟨by simp [escapeMarkup, hlook], by omega⟩
  | case10 | case11 => simp at *

theorem isEncodable_stored {v : Json} (hdoc : v.isDocument = true) (depth : Nat) :
    Text.isEncodable (stored depth v) = v.strings.all Text.isEncodable := by
  have hchar (c : CodePoint) : (storedChar c).all isChar = c.isChar := by
    obtain ⟨hself, -⟩ | ⟨hc, hmarks⟩ := storedChar_cases c
    · rw [hself]
      exact Bool.and_true _
    · have hall : ∀ x ∈ escapeMarks, x.isChar = true := by decide
      rw [hc]
      exact all_eq_true.mpr fun x hx => hall x (hmarks x hx)
  have hnumeric (c : CodePoint) (hc : isNumeric c = true) : c.isChar = true := by
    cases c with
    | char c => rfl
    | half k =>
      rw [isNumeric, Bool.or_eq_true, contains_iff_mem] at hc
      obtain hc | hc := hc
      · have hle : 0xD800 + k.val ≤ 57 := of_decide_eq_true (Bool.and_eq_true_iff.mp hc).2
        omega
      · obtain ⟨_, _, heq⟩ := mem_map.mp hc
        cases heq
  refine all_stored (by decide) (fun s => ?_) hnumeric hdoc depth
  rw [all_flatMap]
  exact congrArg s.all (funext hchar)

theorem return_not_mem_stored {v : Json} (hdoc : v.isDocument = true) (depth : Nat) :
    .char '\r' ∉ stored depth v := by
  have hchar (c : CodePoint) : (storedChar c).all (· != .char '\r') = true := by
    obtain ⟨hself, hc⟩ | ⟨-, hmarks⟩ := storedChar_cases c
    · have hne : c ≠ .char '\r' := by
        rintro rfl
        exact absurd hc (by decide)
      simp [hself, hne]
    · have hall : ∀ x ∈ escapeMarks, (x != .char '\r') = true := by decide
      exact all_eq_true.mpr fun x hx => hall x (hmarks x hx)
  have hnumeric (c : CodePoint) (hc : isNumeric c = true) : (c != .char '\r') = true := by
    rw [bne_iff_ne]
    rintro rfl
    exact absurd hc (by decide)
  have hall : (stored depth v).all (· != .char '\r') = v.strings.all fun _ => true :=
    all_stored (by decide) (fun s => by simp [hchar]) hnumeric hdoc depth
  intro hmem
  exact absurd (all_eq_true.mp (hall.trans (by simp)) _ hmem) (by decide)

end ViewLint.Json
