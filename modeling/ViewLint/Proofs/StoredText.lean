import ViewLint.Proofs.Graft
import ViewLint.Proofs.Numerals
import ViewLint.View.Escapes

/-!
# Stored documents

The characters of markup are escaped after a document has been written, wherever they stand. They stand
inside strings only, each for itself, so their escapes are escapes of the string, and a stored document is
read back as it was.

* `Json.storedChar`: a character inside a string of a stored document.
* **`Json.stringBody_storedChar`**: a character is read back from what stands for it.
* **`Json.reads_stored`**: a document is read back from its stored text, if its integers can be written.
-/

namespace ViewLint

open List Fields CodePoint

variable {s rest : Text} {c d : CodePoint}

theorem CodePoint.ofNat_toNat (c : CodePoint) : ofNat c.toNat = c := by
  cases c with
  | char c =>
    have hvalid : c.toNat < 0xD800 ∨ 0xDFFF < c.toNat ∧ c.toNat < 0x110000 := c.valid
    have hchar : char (Char.ofNat c.toNat) = .char c := by rw [Char.ofNat_toNat]
    rw [toNat, ofNat]
    split
    · rw [if_neg (by omega), hchar]
    · exact hchar
  | half k =>
    have hk : 0xD800 + k.val - 0xD800 < 0x800 := by omega
    rw [ofNat, toNat, dif_pos hk, if_pos (Nat.le_add_right _ _)]
    exact congrArg _ (Fin.ext (Nat.add_sub_cancel_left _ _))

theorem CodePoint.eq_ofNat {n : Nat} (h : (c.toNat == n) = true) : c = ofNat n := by rw [← eq_of_beq h, ofNat_toNat]

namespace View

/-! ## Characters of markup -/

theorem escapeMarkup_append (s t : Text) : escapeMarkup (s ++ t) = escapeMarkup s ++ escapeMarkup t :=
  flatMap_append

def isPlain (c : CodePoint) : Bool := (markupEscapes.lookup c).isNone

theorem escapeMarkup_of_plain (h : ∀ c ∈ s, isPlain c = true) : escapeMarkup s = s := by
  induction s with
  | nil => rfl
  | cons c r ih =>
    obtain ⟨hc, hr⟩ := forall_mem_cons.mp h
    rw [escapeMarkup, flatMap_cons, Option.isNone_iff_eq_none.mp hc]
    exact congrArg _ (ih hr)

theorem mem_markupEscapes (h : markupEscapes.lookup c = some s) : (c, s) ∈ markupEscapes := by
  obtain ⟨front, back, heq, -⟩ := lookup_eq_some_iff.mp h
  exact heq ▸ mem_append_right _ mem_cons_self

theorem isPlain_of_isNumeric (h : Json.isNumeric c = true) : isPlain c = true := by
  cases hlook : markupEscapes.lookup c with
  | none => rw [isPlain, hlook]; rfl
  | some s =>
    have hmarkup : ∀ p ∈ markupEscapes, Json.isNumeric p.1 = false := by decide
    exact absurd (h.symm.trans (hmarkup _ (mem_markupEscapes hlook))) (by decide)

theorem isPlain_of_mem_escapeMarkup (h : c ∈ escapeMarkup s) : isPlain c = true := by
  obtain ⟨d, -, hd⟩ := mem_flatMap.mp h
  cases hlook : markupEscapes.lookup d with
  | none =>
    rw [hlook] at hd
    obtain rfl := mem_singleton.mp hd
    rw [isPlain, hlook]
    rfl
  | some escape =>
    rw [hlook] at hd
    have hplain : ∀ p ∈ markupEscapes, ∀ x ∈ p.2, isPlain x = true := by decide
    exact hplain _ (mem_markupEscapes hlook) c hd

end View

namespace Json

open View

/-! ## Strings -/

/-- A character inside a string of a stored document. -/
def storedChar (c : CodePoint) : Text := escapeMarkup (escapeChar false c)

theorem escapeMarkup_stringText (s : Text) :
    escapeMarkup (stringText false s) = .char '"' :: (s.flatMap storedChar ++ [.char '"']) := by
  have hbody : escapeMarkup (s.flatMap (escapeChar false)) = s.flatMap storedChar := flatMap_assoc
  rw [stringText, escapeMarkup_append, escapeMarkup_append, hbody]
  rfl

section

variable (start : Nat)

theorem stringBody_skip (t r : Text) : stringBody start t.length (t ++ r) = stringBody start 0 r := by
  induction t with
  | nil => rfl
  | cons c t ih => rw [length_cons, cons_append, stringBody, ih]

theorem stringBody_escape {r : Text} {k : Nat} (h : escape start r = .ok (d, k)) :
    stringBody start 0 (.char '\\' :: r) = (stringBody start k r).map fun p => (d :: p.1, p.2) := by
  simp only [stringBody, h]
  cases stringBody start k r <;> rfl

theorem stringBody_cons (hquote : c ≠ .char '"') (hslash : c ≠ .char '\\') (hcontrol : 32 ≤ c.toNat) (r : Text) :
    stringBody start 0 (c :: r) = (stringBody start 0 r).map fun p => (c :: p.1, p.2) := by
  rw [stringBody, if_neg (by simpa using hquote), if_neg (by simpa using hslash), if_neg (by omega)]
  cases stringBody start 0 r <;> rfl

/-- An escape by the number of a character that is no half of a pair. -/
structure UnitEscape (s : Text) (c : CodePoint) : Prop where
  length : s.length = 6
  start : s.take 2 = "\\u"
  value : ∃ n, hex4? (s.drop 2 ++ [.char '"']) = some n ∧ isHighSurrogate n = false ∧ CodePoint.ofNat n = c

theorem stringBody_unitEscape (h : UnitEscape s c) (hrest : rest ≠ []) :
    stringBody start 0 (s ++ rest) = (stringBody start 0 rest).map fun p => (c :: p.1, p.2) := by
  obtain ⟨hlength, hstart, n, hvalue, hhigh, rfl⟩ := h
  obtain ⟨x, r, rfl⟩ := exists_cons_of_ne_nil hrest
  match s, hlength with
  | [a, b, c, d, e, f], _ =>
    obtain ⟨rfl, rfl⟩ : a = .char '\\' ∧ b = .char 'u' := by simpa [Text.ofString] using hstart
    have hhex : hex4? (c :: d :: e :: f :: x :: r) = some n := hvalue
    have hunit : escape start (.char 'u' :: c :: d :: e :: f :: x :: r) = .ok (ofNat n, 5) := by
      rw [escape, if_pos (by decide), unicodeEscape, hhex]
      simp [hhigh]
    exact (stringBody_escape start hunit).trans (congrArg _ (stringBody_skip start [.char 'u', c, d, e, f] (x :: r)))

theorem unitEscape_control (h : c.toNat < 32) :
    UnitEscape (unitEscape c.toNat) c ∧ escapeMarkup (unitEscape c.toNat) = unitEscape c.toNat := by
  have hall : ∀ n < 32, (unitEscape n).length = 6 ∧ (unitEscape n).take 2 = "\\u" ∧
      hex4? ((unitEscape n).drop 2 ++ [.char '"']) = some n ∧ isHighSurrogate n = false ∧
      escapeMarkup (unitEscape n) = unitEscape n := by decide
  obtain ⟨hlength, hstart, hvalue, hhigh, hplain⟩ := hall c.toNat h
  exact ⟨⟨hlength, hstart, c.toNat, hvalue, hhigh, c.ofNat_toNat⟩, hplain⟩

theorem unitEscape_markup (h : markupEscapes.lookup c = some s) : UnitEscape s c := by
  have hall : ∀ p ∈ markupEscapes, p.2.length = 6 ∧ p.2.take 2 = "\\u" ∧
      hex4? (p.2.drop 2 ++ [.char '"']) = some p.1.toNat ∧ isHighSurrogate p.1.toNat = false := by decide
  obtain ⟨hlength, hstart, hvalue, hhigh⟩ := hall _ (mem_markupEscapes h)
  exact ⟨hlength, hstart, c.toNat, hvalue, hhigh, c.ofNat_toNat⟩

theorem stringBody_pair (h : escape start (d :: rest) = .ok (c, 1)) :
    stringBody start 0 (.char '\\' :: d :: rest) = (stringBody start 0 rest).map fun p => (c :: p.1, p.2) :=
  (stringBody_escape start h).trans (congrArg _ (stringBody_skip start [d] rest))

theorem stringBody_storedChar (c : CodePoint) (hrest : rest ≠ []) :
    stringBody start 0 (storedChar c ++ rest) = (stringBody start 0 rest).map fun p => (c :: p.1, p.2) := by
  rw [storedChar]
  fun_cases escapeChar false c with
  | case1 h | case2 _ h | case3 _ _ h | case4 _ _ _ h | case5 _ _ _ _ h =>
    obtain rfl := eq_of_beq h
    exact stringBody_pair start rfl
  | case6 _ _ _ _ _ _ h | case7 _ _ _ _ _ _ _ h =>
    obtain rfl := eq_ofNat h
    exact stringBody_pair start rfl
  | case8 n _ _ _ _ _ _ _ h =>
    obtain ⟨hescape, hplain⟩ := unitEscape_control h
    rw [hplain]
    exact stringBody_unitEscape start hescape hrest
  | case9 n hquote hslash _ _ _ _ _ hcontrol =>
    cases hlook : markupEscapes.lookup c with
    | some s =>
      have hmarkup : escapeMarkup [c] = s := by simp [escapeMarkup, hlook]
      rw [hmarkup]
      exact stringBody_unitEscape start (unitEscape_markup hlook) hrest
    | none =>
      have hself : escapeMarkup [c] = [c] := by simp [escapeMarkup, hlook]
      rw [hself]
      exact stringBody_cons start (by simpa using hquote) (by simpa using hslash) (by omega) rest
  | case10 | case11 => simp at *

theorem stringBody_stored (s rest : Text) :
    stringBody start 0 (s.flatMap storedChar ++ .char '"' :: rest) = .ok (s, rest) := by
  induction s with
  | nil => rfl
  | cons c s ih =>
    rw [flatMap_cons, append_assoc, stringBody_storedChar start c (by simp), ih]
    rfl

end

/-- **A string is read back from a stored document.** -/
theorem stringAfterQuote_stored (s rest : Text) :
    stringAfterQuote (s.flatMap storedChar ++ .char '"' :: rest) = .ok (s, rest) := stringBody_stored _ s rest

/-! ## Values -/

mutual

/-- A value whose objects only keep the order of their fields. -/
def plain : Json → Json
  | .arr items => .arr (plainItems items)
  | .obj _ fields => .obj .plain (plainFields fields)
  | v => v

/-- Items whose objects only keep the order of their fields. -/
def plainItems : List Json → List Json
  | [] => []
  | x :: rest => plain x :: plainItems rest

/-- Fields whose objects only keep the order of their fields. -/
def plainFields : List (Key × Json) → List (Key × Json)
  | [] => []
  | (k, v) :: rest => (k, plain v) :: plainFields rest

end

mutual

def integers : Json → List Int
  | .int n => [n]
  | .arr items => integersOfItems items
  | .obj _ fields => integersOfFields fields
  | _ => []

def integersOfItems : List Json → List Int
  | [] => []
  | x :: rest => integers x ++ integersOfItems rest

def integersOfFields : List (Key × Json) → List Int
  | [] => []
  | (_, v) :: rest => integers v ++ integersOfFields rest

end

theorem mem_integersOfItems {n : Int} {items : List Json} :
    n ∈ integersOfItems items ↔ ∃ x ∈ items, n ∈ x.integers := by
  induction items with
  | nil => simp [integersOfItems]
  | cons x items ih => simp [integersOfItems, ih]

theorem mem_integersOfFields {n : Int} {fields : List (Key × Json)} :
    n ∈ integersOfFields fields ↔ ∃ f ∈ fields, n ∈ f.2.integers := by
  induction fields with
  | nil => simp [integersOfFields]
  | cons f fields ih => simp [integersOfFields, ih]

/-- Whether a value is read from a text, whatever follows that cannot go on with it. -/
def Reads (v : Json) (s : Text) : Prop :=
  ∀ fuel rest, EndsNumber rest → 2 * s.length ≤ fuel → value fuel (s ++ rest) = .ok (v, rest)

/-- The characters that no word and no number starts with: blanks, those that structure a document, and the mark
of the byte order. -/
def structural : Text := " \t\n\r\"[]\x7b\x7d\uFEFF"

theorem atom_of_structural (h : c ∈ structural) (r : Text) :
    atom (c :: r) = .error ⟨.expectingValue, r.length + 1⟩ := by
  simp only [structural, Text.ofString, String.reduceToList, map_cons, map_nil, mem_cons, not_mem_nil, or_false] at h
  rcases h with rfl | rfl | rfl | rfl | rfl | rfl | rfl | rfl | rfl | rfl <;> rfl

theorem value_of_atom {r : Text} {p : Json × Text} (h : atom (c :: r) = .ok p) (fuel : Nat) :
    value (fuel + 1) (c :: r) = .ok p := by
  have hne (x : Char) (hx : char x ∈ structural) : ¬ (c == .char x) = true := by
    intro hc
    rw [eq_of_beq hc, atom_of_structural hx] at h
    cases h
  rw [value, if_neg (hne '"' (by decide)), if_neg (hne '[' (by decide)), if_neg (hne '\x7b' (by decide)), h]

theorem Reads.of_cons {v : Json} (h : ∀ fuel rest, EndsNumber rest → 2 * (c :: s).length ≤ fuel + 1 →
    value (fuel + 1) (c :: (s ++ rest)) = .ok (v, rest)) : Reads v (c :: s) := by
  intro fuel rest hrest hfuel
  obtain ⟨fuel, rfl⟩ : ∃ k, fuel = k + 1 := Nat.exists_eq_add_one.mpr (by rw [length_cons] at hfuel; omega)
  exact h fuel rest hrest hfuel

theorem Reads.of_atom {v : Json} (h : ∀ rest, EndsNumber rest → atom (s ++ rest) = .ok (v, rest)) : Reads v s := by
  cases s with
  | nil => exact nomatch (h [] nofun : Except.error _ = Except.ok (v, []))
  | cons c s => exact .of_cons fun fuel rest hrest _ => value_of_atom (h rest hrest) fuel

theorem skipBlanks_of_value {fuel : Nat} {p : Json × Text} (h : value fuel s = .ok p) :
    skipBlanks s = s ∧ ∀ c ∈ s.head?, c ≠ .char ']' ∧ c ≠ ofNat 0xFEFF := by
  cases fuel with
  | zero => cases h
  | succ fuel =>
    cases s with
    | nil => cases h
    | cons c r =>
      have hne {x : Char} (hx : char x ∈ Text.ofString " \t\n\r]\uFEFF") : c ≠ .char x := by
        rintro rfl
        have hsub : ∀ x ∈ Text.ofString " \t\n\r]\uFEFF", x ∈ structural ∧
            x ≠ .char '"' ∧ x ≠ .char '[' ∧ x ≠ .char '\x7b' := by decide
        obtain ⟨hmem, hquote, hbracket, hbrace⟩ := hsub _ hx
        rw [value, if_neg (by simpa using hquote), if_neg (by simpa using hbracket), if_neg (by simpa using hbrace),
          atom_of_structural hmem] at h
        cases h
      refine ⟨dropWhile_cons_of_neg ?_, fun d hd => ?_⟩
      · simp [hne (x := ' ') (by decide), hne (x := '\t') (by decide), hne (x := '\n') (by decide),
          hne (x := '\r') (by decide)]
      · cases hd
        exact ⟨hne (by decide), hne (x := '\uFEFF') (by decide)⟩

/-! ## Stored documents -/

def storedLine (depth : Nat) : Text := Style.document.lineStart depth

theorem mem_storedLine {depth : Nat} (h : c ∈ storedLine depth) : c = .char '\n' ∨ c = .char ' ' := by
  rw [storedLine, Style.lineStart, Style.document, mem_append] at h
  obtain h | h := h
  · exact .inl (mem_singleton.mp h)
  · obtain ⟨t, ht, hc⟩ := mem_flatten.mp h
    rw [eq_of_mem_replicate ht] at hc
    exact .inr (mem_singleton.mp hc)

theorem skipBlanks_storedLine (depth : Nat) (s : Text) : skipBlanks (storedLine depth ++ s) = skipBlanks s := by
  refine dropWhile_append_of_pos fun c hc => ?_
  obtain rfl | rfl := mem_storedLine hc <;> decide

theorem escapeMarkup_storedLine (depth : Nat) : escapeMarkup (storedLine depth) = storedLine depth := by
  refine escapeMarkup_of_plain fun c hc => ?_
  obtain rfl | rfl := mem_storedLine hc <;> decide

def stored (depth : Nat) (v : Json) : Text := escapeMarkup (renderAt .document depth v)

/-- The items of an array after the first, at a depth of a stored document. -/
def storedItems (depth : Nat) (items : List Json) : Text := escapeMarkup (renderItems .document depth items)

/-- The fields of an object after the first, at a depth of a stored document. -/
def storedFields (depth : Nat) (fields : List (Key × Json)) : Text :=
  escapeMarkup (renderFields .document depth fields)

def storedField (depth : Nat) (f : Key × Json) : Text := escapeMarkup (renderField .document depth f)

section

variable (depth : Nat)

theorem escapeMarkup_separator : escapeMarkup (Style.document.separator depth) = .char ',' :: storedLine depth :=
  (escapeMarkup_append "," (storedLine depth)).trans (congrArg (char ',' :: ·) (escapeMarkup_storedLine depth))

theorem storedItems_cons (x : Json) (xs : List Json) :
    storedItems depth (x :: xs) = .char ',' :: (storedLine depth ++ (stored depth x ++ storedItems depth xs)) := by
  rw [storedItems, renderItems, escapeMarkup_append, escapeMarkup_append, escapeMarkup_separator, append_assoc]
  rfl

theorem storedFields_cons (f : Key × Json) (fs : List (Key × Json)) : storedFields depth (f :: fs) =
      .char ',' :: (storedLine depth ++ (storedField depth f ++ storedFields depth fs)) := by
  rw [storedFields, renderFields, escapeMarkup_append, escapeMarkup_append, escapeMarkup_separator, append_assoc]
  rfl

theorem storedField_name (key : Text) (v : Json) :
    storedField depth (.name key, v) = .char '"' :: (key.flatMap storedChar ++ .char '"' :: .char ':' :: .char ' ' ::
      stored depth v) := by
  rw [storedField, renderField, escapeMarkup_append, escapeMarkup_append, escapeMarkup_append]
  change escapeMarkup (stringText false key) ++ _ ++ _ ++ _ = _
  rw [escapeMarkup_stringText]
  simp only [cons_append, append_assoc]
  rfl

theorem escapeMarkup_enclosed (a s t b : Text) :
    escapeMarkup (a ++ storedLine (depth + 1) ++ s ++ t ++ storedLine depth ++ b) = escapeMarkup a ++
      (storedLine (depth + 1) ++ (escapeMarkup s ++ escapeMarkup t ++ (storedLine depth ++ escapeMarkup b))) := by
  simp only [escapeMarkup_append, escapeMarkup_storedLine, append_assoc]

theorem stored_arr (x : Json) (xs : List Json) :
    stored depth (.arr (x :: xs)) = .char '[' :: (storedLine (depth + 1) ++ (stored (depth + 1) x ++
      storedItems (depth + 1) xs ++ (storedLine depth ++ [.char ']']))) :=
  escapeMarkup_enclosed depth "[" _ _ "]"

theorem stored_obj (kind : ObjectKind) (f : Key × Json) (fs : List (Key × Json)) :
    stored depth (.obj kind (f :: fs)) = .char '\x7b' :: (storedLine (depth + 1) ++ (storedField (depth + 1) f ++
      storedFields (depth + 1) fs ++ (storedLine depth ++ [.char '\x7d']))) :=
  escapeMarkup_enclosed depth "\x7b" _ _ "\x7d"

end

/-! ## Reading back -/

section

variable {v x : Json} {rest t : Text} {xs : List Json} {pairs : List (Text × Json)} {depth fuel : Nat}

theorem endsNumber_cons (h : isNumeric c = false) (hE : c ≠ .char 'E') (s : Text) : EndsNumber (c :: s) := by
  intro d hd
  cases hd
  refine ⟨?_, ?_, ?_, hE⟩
  · cases hdigit : isDigitChar c with
    | true => exact (isNumeric_of_isDigitChar hdigit).symm.trans h
    | false => rfl
  · rintro rfl; exact absurd h (by decide)
  · rintro rfl; exact absurd h (by decide)

theorem endsNumber_storedLine (e : Nat) (s : Text) : EndsNumber (storedLine e ++ s) :=
  endsNumber_cons (by decide) (by decide) _

theorem endsNumber_comma (s : Text) : EndsNumber (.char ',' :: s) := endsNumber_cons (by decide) (by decide) _

theorem endsNumber_storedItems (depth : Nat) (xs : List Json) (e : Nat) (s : Text) :
    EndsNumber (storedItems depth xs ++ (storedLine e ++ s)) := by
  cases xs with
  | nil => exact endsNumber_storedLine e s
  | cons x xs => rw [storedItems_cons]; exact endsNumber_comma _

theorem Reads.skipBlanks_append (h : Reads v s) (hrest : EndsNumber rest) : skipBlanks (s ++ rest) = s ++ rest :=
  (skipBlanks_of_value (h (2 * s.length) rest hrest (Nat.le_refl _))).1

/-- **The items of an array are read back.** -/
theorem items_stored (hall : ∀ y ∈ x :: xs, Reads y.plain (stored depth y)) (e : Nat)
    (rest : Text) (fuel : Nat) (hfuel : 2 * (stored depth x ++ storedItems depth xs).length < fuel) :
    items fuel (stored depth x ++ (storedItems depth xs ++ (storedLine e ++ .char ']' :: rest))) =
      .ok (plainItems (x :: xs), rest) := by
  induction xs generalizing x fuel
  all_goals
    obtain ⟨fuel, rfl⟩ := Nat.exists_eq_add_one.mpr (Nat.zero_lt_of_lt hfuel)
    have hx (zs : List Json) := hall x mem_cons_self fuel _ (endsNumber_storedItems depth zs e (.char ']' :: rest))
      (by rw [length_append] at hfuel; omega)
  case nil =>
    have hclose : skipBlanks (storedItems depth [] ++ (storedLine e ++ .char ']' :: rest)) = .char ']' :: rest :=
      skipBlanks_storedLine e _
    simp only [items, hx, hclose]
    rfl
  case cons y ys ih =>
    have hys := ih (fun z hz => hall z (mem_cons_of_mem x hz)) fuel
      (by rw [storedItems_cons] at hfuel; simp only [length_append, length_cons] at hfuel ⊢; omega)
    have hy := (hall y (by simp)).skipBlanks_append (endsNumber_storedItems depth ys e (.char ']' :: rest))
    have hcomma : skipBlanks (storedItems depth (y :: ys) ++ (storedLine e ++ .char ']' :: rest)) =
        .char ',' :: (storedLine depth ++ (stored depth y ++ (storedItems depth ys ++
          (storedLine e ++ .char ']' :: rest)))) := by
      rw [storedItems_cons]
      simp only [cons_append, append_assoc]
      rfl
    simp only [items, hx, hcomma, skipBlanks_storedLine, hy, hys]
    rfl

def named (pairs : List (Text × Json)) : List (Key × Json) := pairs.map fun p => (.name p.1, p.2)

theorem named_cons (p : Text × Json) (pairs : List (Text × Json)) :
    named (p :: pairs) = (.name p.1, p.2) :: named pairs := rfl

theorem plainFields_named (pairs : List (Text × Json)) :
    plainFields (named pairs) = named (pairs.map fun p => (p.1, p.2.plain)) := by
  induction pairs with
  | nil => rfl
  | cons p pairs ih => exact congrArg _ ih

theorem has_named (pairs : List (Text × Json)) (key : Text) :
    has (named pairs) (.name key) = true ↔ key ∈ pairs.map (·.1) := by
  rw [Fields.has, Fields.get?, Option.isSome_map, List.find?_isSome, named]
  simp only [mem_map, exists_exists_and_eq_and, Key.name_beq_name, decide_eq_true_eq]

/-- The fields of a document stand under different names. -/
theorem exists_named {fields : List (Key × Json)} (h : isDocumentFields fields = true) :
    ∃ pairs, fields = named pairs ∧ (pairs.map (·.1)).Nodup := by
  induction fields with
  | nil => exact ⟨[], rfl, nodup_nil⟩
  | cons f fields ih =>
    obtain ⟨key, v, rfl, hfresh, -, h⟩ := of_isDocumentFields_cons h
    obtain ⟨pairs, rfl, hnodup⟩ := ih h
    refine ⟨(key, v) :: pairs, rfl, nodup_cons.mpr ⟨fun hmem => ?_, hnodup⟩⟩
    have hhas := (has_named pairs key).mpr hmem
    rw [has, hfresh] at hhas
    cases hhas

theorem members_field (hv : Reads v.plain (stored depth v))
    (hrest : EndsNumber rest) (key : Text) (hfuel : 2 * (storedField depth (.name key, v)).length ≤ fuel) :
    (∀ t, skipBlanks rest = .char '\x7d' :: t →
      members (fuel + 1) (storedField depth (.name key, v) ++ rest) = .ok ([(key, v.plain)], t)) ∧
    ∀ t fs u, skipBlanks rest = .char ',' :: t → members fuel (skipBlanks t) = .ok (fs, u) →
      members (fuel + 1) (storedField depth (.name key, v) ++ rest) = .ok ((key, v.plain) :: fs, u) := by
  have hcolon : skipBlanks (.char ':' :: .char ' ' :: (stored depth v ++ rest)) =
    .char ':' :: .char ' ' :: (stored depth v ++ rest) := rfl
  have hblank : skipBlanks (.char ' ' :: (stored depth v ++ rest)) = stored depth v ++ rest :=
    hv.skipBlanks_append hrest
  rw [storedField_name] at hfuel ⊢
  simp only [length_append, length_cons] at hfuel
  have hvalue := hv fuel rest hrest (by omega)
  simp only [cons_append, append_assoc, members, stringAfterQuote_stored, hcolon, hblank, hvalue]
  constructor
  · intro t ht
    simp only [ht]
  · intro t fs u ht hfs
    simp only [ht, hfs]

/-- **The fields of an object are read back.** -/
theorem members_stored {key : Text}
    (hall : ∀ p ∈ (key, v) :: pairs, Reads p.2.plain (stored depth p.2)) (e : Nat) (rest : Text) (fuel : Nat)
    (hfuel : 2 * (storedField depth (.name key, v) ++ storedFields depth (named pairs)).length < fuel) :
    members fuel (storedField depth (.name key, v) ++ (storedFields depth (named pairs) ++
      (storedLine e ++ .char '\x7d' :: rest))) = .ok (((key, v) :: pairs).map fun p => (p.1, p.2.plain), rest) := by
  induction pairs generalizing key v fuel
  all_goals
    obtain ⟨fuel, rfl⟩ := Nat.exists_eq_add_one.mpr (Nat.zero_lt_of_lt hfuel)
    have hv : Reads v.plain (stored depth v) := hall _ mem_cons_self
  case nil =>
    rw [length_append] at hfuel
    exact (members_field hv (endsNumber_storedLine e _) key (by omega)).1 _ (skipBlanks_storedLine e _)
  case cons p pairs ih =>
    rw [named_cons, storedFields_cons] at hfuel ⊢
    simp only [length_append, length_cons] at hfuel
    have hpairs := ih (fun q hq => hall q (mem_cons_of_mem _ hq)) fuel (by rw [length_append]; omega)
    have hskip (s : Text) : skipBlanks (storedLine depth ++ (storedField depth (.name p.1, p.2) ++ s)) =
        storedField depth (.name p.1, p.2) ++ s := by
      rw [skipBlanks_storedLine, storedField_name]
      rfl
    simp only [cons_append, append_assoc]
    exact (members_field hv (endsNumber_comma _) key (by omega)).2 _ _ _ rfl (by rw [hskip]; exact hpairs)

theorem value_arr (hskip : skipBlanks s = t)
    (hne : ∀ c ∈ t.head?, c ≠ .char ']') (h : items fuel t = .ok (xs, rest)) :
    value (fuel + 1) (.char '[' :: s) = .ok (.arr xs, rest) := by
  subst hskip
  rw [value, if_neg (by decide), if_pos (by decide)]
  split
  · rename_i heq
    rw [heq] at hne
    exact absurd rfl (hne _ rfl)
  · rw [h]

theorem value_obj (hskip : skipBlanks s = t)
    (hne : ∀ c ∈ t.head?, c ≠ .char '\x7d') (h : members fuel t = .ok (pairs, rest)) :
    value (fuel + 1) (.char '\x7b' :: s) = .ok (.object (ofPairs pairs), rest) := by
  subst hskip
  rw [value, if_neg (by decide), if_neg (by decide), if_pos (by decide)]
  split
  · rename_i heq
    rw [heq] at hne
    exact absurd rfl (hne _ rfl)
  · rw [h]

theorem reads_arr (hall : ∀ y ∈ x :: xs, Reads y.plain (stored (depth + 1) y)) :
    Reads (Json.arr (x :: xs)).plain (stored depth (.arr (x :: xs))) := by
  rw [stored_arr]
  refine .of_cons fun fuel rest _ hfuel => ?_
  simp only [length_cons, length_append] at hfuel
  have hread := items_stored hall depth rest fuel (by rw [length_append]; omega)
  have hends := endsNumber_storedItems (depth + 1) xs depth (.char ']' :: rest)
  have hx := hall x mem_cons_self
  obtain ⟨hskip, hne⟩ := skipBlanks_of_value (hx _ _ hends (Nat.le_refl _))
  simp only [append_assoc]
  exact value_arr ((skipBlanks_storedLine _ _).trans hskip) (fun c hc => (hne c hc).1) hread

theorem reads_obj (kind : ObjectKind) {p : Text × Json}
    (hnodup : ((p :: pairs).map (·.1)).Nodup) (hall : ∀ q ∈ p :: pairs, Reads q.2.plain (stored (depth + 1) q.2)) :
    Reads (Json.obj kind (named (p :: pairs))).plain (stored depth (.obj kind (named (p :: pairs)))) := by
  obtain ⟨key, v⟩ := p
  change Reads _ (stored depth (.obj kind ((.name key, v) :: named pairs)))
  rw [stored_obj]
  refine .of_cons fun fuel rest _ hfuel => ?_
  simp only [length_cons, length_append] at hfuel
  have hread := members_stored hall depth rest fuel (by rw [length_append]; omega)
  have hplain : Json.object (ofPairs (((key, v) :: pairs).map fun p => (p.1, p.2.plain))) =
      (Json.obj kind (named ((key, v) :: pairs))).plain := by
    rw [ofPairs_of_nodup (by rw [map_map]; exact hnodup), object, plain, plainFields_named]
    rfl
  simp only [append_assoc]
  rw [← hplain]
  refine value_obj ((skipBlanks_storedLine _ _).trans ?_) ?_ hread
  · rw [storedField_name]
    rfl
  · rw [storedField_name]
    intro c hc
    cases hc
    decide

end

theorem reads_stored {v : Json} (hdoc : v.isDocument = true)
    (hint : ∀ n ∈ v.integers, (natText n.natAbs).length ≤ digitLimit) (depth : Nat) :
    Reads v.plain (stored depth v) := by
  induction v using parts_induction generalizing depth with
  | single v hv =>
    cases v with
    | null => exact .of_atom fun rest _ => rfl
    | bool b => cases b <;> exact .of_atom fun rest _ => rfl
    | int n =>
      have htext : stored depth (.int n) = intText n :=
        escapeMarkup_of_plain fun c hc => isPlain_of_isNumeric (isNumeric_of_mem_intText n hc)
      have hshort := hint n (mem_singleton.mpr rfl)
      rw [htext]
      exact .of_atom fun rest hrest => (atom_intText n hrest).trans (if_neg (by omega))
    | float x =>
      have htext : stored depth (.float x) = floatText x :=
        escapeMarkup_of_plain fun c hc => isPlain_of_isNumeric (isNumeric_of_mem_floatText x c hc)
      rw [htext]
      exact .of_atom fun rest hrest => atom_floatText x hrest
    | str s =>
      have htext : stored depth (.str s) = .char '"' :: (s.flatMap storedChar ++ [.char '"']) :=
        escapeMarkup_stringText s
      rw [htext]
      refine .of_cons fun fuel rest _ _ => ?_
      rw [append_assoc, singleton_append, value, if_pos (by decide), stringAfterQuote_stored]
      rfl
    | arr _ | obj _ _ => cases hv
  | arr items ih =>
    cases items with
    | nil => exact .of_cons fun fuel rest _ _ => rfl
    | cons x xs =>
      refine reads_arr fun y hy => ih y hy (isDocumentItems_eq_true_iff.mp hdoc y hy) (fun n hn => ?_) _
      exact hint n (mem_integersOfItems.mpr ⟨y, hy, hn⟩)
  | obj kind fields ih =>
    obtain ⟨pairs, rfl, hnodup⟩ := exists_named hdoc
    cases pairs with
    | nil => exact .of_cons fun fuel rest _ _ => rfl
    | cons p pairs =>
      refine reads_obj kind hnodup fun q hq => ?_
      have hmem : ((Key.name q.1, q.2) : Key × Json) ∈ named (p :: pairs) := mem_map.mpr ⟨q, hq, rfl⟩
      have hfield := isDocument_of_get? hdoc (get?_of_mem hdoc hmem)
      exact ih _ hmem hfield (fun n hn => hint n (mem_integersOfFields.mpr ⟨_, hmem, hn⟩)) _

end Json

end ViewLint
