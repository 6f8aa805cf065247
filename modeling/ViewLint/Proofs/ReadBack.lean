import ViewLint.Proofs.StoredText

/-!
# Documents read back

What is read from a text has named fields under different names, no order of fields that counts, and
integers within the limit of digits. Just such values are read back as they are from the text that they
are stored as.

* `Json.IsRead`: values as they are read from a text.
* **`Json.isRead_of_parse`**: what is read has this form.
* **`View.parse_format`**: a document is read back from its stored text, which holds no character of markup.
-/

namespace ViewLint

open List Json Fields

variable {s rest : Text} {pairs : List (Text × Json)} {v : Json}

namespace Json

/-! ## What is read -/

/-- A value as it is read from a text. -/
structure IsRead (v : Json) : Prop where
  isDocument : v.isDocument = true
  plain : v.plain = v
  integers : ∀ n ∈ v.integers, (natText n.natAbs).length ≤ digitLimit

theorem isRead_of_single (hv : v.isContainer = false)
    (h : ∀ n ∈ v.integers, (natText n.natAbs).length ≤ digitLimit) : IsRead v := by
  refine ⟨?_, ?_, h⟩ <;> cases v <;> first | rfl | cases hv

theorem isRead_arr {items : List Json} (h : ∀ x ∈ items, IsRead x) : IsRead (.arr items) := by
  refine ⟨isDocumentItems_eq_true_iff.mpr fun x hx => (h x hx).isDocument, ?_, fun n hn => ?_⟩
  · have hmap : plainItems items = items.map plain := by
      clear h
      induction items with
      | nil => rfl
      | cons x items ih => exact congrArg _ ih
    have hself : items.map plain = items := (map_congr_left fun x hx => (h x hx).plain).trans (map_id _)
    rw [plain, hmap, hself]
  · obtain ⟨x, hx, hn⟩ := mem_integersOfItems.mp hn
    exact (h x hx).integers n hn

theorem isDocumentFields_named (hnodup : (pairs.map (·.1)).Nodup)
    (h : ∀ p ∈ pairs, p.2.isDocument = true) : isDocumentFields (named pairs) = true := by
  induction pairs with
  | nil => rfl
  | cons p pairs ih =>
    rw [map_cons, nodup_cons] at hnodup
    obtain ⟨hp, hpairs⟩ := forall_mem_cons.mp h
    have hnew : has (named pairs) (.name p.1) = false :=
      Bool.eq_false_iff.mpr fun hhas => hnodup.1 ((has_named pairs p.1).mp hhas)
    change (!has (named pairs) (.name p.1) && p.2.isDocument && isDocumentFields (named pairs)) = true
    rw [hnew, hp, ih hnodup.2 hpairs]
    rfl

theorem isRead_object (h : ∀ p ∈ pairs, IsRead p.2) : IsRead (.object (ofPairs pairs)) := by
  replace h : ∀ p ∈ ofPairs pairs, IsRead p.2 := fun p hp => h p (mem_of_mem_ofPairs hp)
  refine ⟨isDocumentFields_named (nodup_ofPairs pairs) fun p hp => (h p hp).isDocument, ?_, fun n hn => ?_⟩
  · have hself : (ofPairs pairs).map (fun p => (p.1, p.2.plain)) = ofPairs pairs :=
      (map_congr_left fun p hp => congrArg (Prod.mk p.1) (h p hp).plain).trans (map_id _)
    change obj .plain (plainFields (named (ofPairs pairs))) = _
    rw [plainFields_named, hself]
    rfl
  · obtain ⟨f, hf, hn⟩ := mem_integersOfFields.mp hn
    obtain ⟨p, hp, rfl⟩ := mem_map.mp hf
    exact (h p hp).integers n hn

theorem allDigits_of_wholePart? {whole : Text} (h : wholePart? s = some (whole, rest)) :
    AllDigits whole ∧ whole ≠ [] := by
  cases s with
  | nil => cases h
  | cons c r =>
    rw [wholePart?] at h
    split at h
    · rename_i hc
      cases h
      exact ⟨forall_mem_singleton.mpr (eq_of_beq hc ▸ by decide), cons_ne_nil _ _⟩
    · split at h
      · rename_i hc
        cases h
        exact ⟨forall_mem_cons.mpr ⟨hc, all_eq_true.mp all_takeWhile⟩, cons_ne_nil _ _⟩
      · cases h

theorem isRead_of_unsigned {negative : Bool} (h : unsigned negative s = some (.ok (v, rest))) : IsRead v := by
  obtain ⟨⟨whole, r⟩, hwhole, h⟩ := Option.map_eq_some_iff.mp h
  obtain ⟨hdigits, hne⟩ := allDigits_of_wholePart? hwhole
  simp only at h
  split at h
  · split at h
    · cases h
    · rename_i hlimit
      cases h
      refine isRead_of_single rfl fun n hn => ?_
      have hn : n.natAbs = digitsValue whole := by
        rw [mem_singleton.mp hn]
        split <;> omega
      rw [hn]
      have hlength : (natText (digitsValue whole)).length ≤ whole.length :=
        (length_natDigits_le_iff (length_pos_iff.mpr hne)).mpr (digitsValue_lt hdigits)
      omega
  · cases h
    exact isRead_of_single rfl nofun

theorem isRead_of_atom (h : atom s = .ok (v, rest)) : IsRead v := by
  have hnumber {number : Option (Except Failure (Json × Text))} {e : Failure}
      (h : number.getD (.error e) = .ok (v, rest)) : number = some (.ok (v, rest)) := by
    cases number with
    | none => cases h
    | some _ => exact congrArg some h
  unfold atom at h
  split at h
  · rename_i p hword
    cases h
    obtain ⟨w, hw, hv⟩ := Option.map_eq_some_iff.mp hword
    have hmem := mem_of_find?_eq_some hw
    obtain ⟨rfl, -⟩ := Prod.mk.inj hv
    simp only [mem_cons, not_mem_nil, or_false] at hmem
    rcases hmem with rfl | rfl | rfl | rfl | rfl | rfl <;> exact isRead_of_single rfl nofun
  · replace h := hnumber h
    split at h <;> exact isRead_of_unsigned h

/-- **What is read from a text, with the items and the members in it.** -/
theorem isRead_of_value (fuel : Nat) :
    (∀ s v rest, value fuel s = .ok (v, rest) → IsRead v) ∧
    (∀ s xs rest, items fuel s = .ok (xs, rest) → ∀ x ∈ xs, IsRead x) ∧
    ∀ s pairs rest, members fuel s = .ok (pairs, rest) → ∀ p ∈ pairs, IsRead p.2 := by
  induction fuel with
  | zero =>
    refine ⟨?_, ?_, ?_⟩ <;> (intro s v rest h; simp [value, items, members] at h)
  | succ fuel ih =>
    obtain ⟨hvalue, hitems, hmembers⟩ := ih
    refine ⟨fun s v rest h => ?_, fun s xs rest h => ?_, fun s pairs rest h => ?_⟩
    · cases s with
      | nil => cases h
      | cons c r =>
        have hempty : IsRead (.object []) := @isRead_object [] (forall_mem_nil _)
        rw [value] at h
        repeat' split at h
        all_goals first | exact isRead_of_atom h | cases h
        all_goals first
          | exact isRead_of_single rfl (forall_mem_nil _)
          | exact isRead_arr (forall_mem_nil _)
          | exact isRead_arr (hitems _ _ _ ‹_›)
          | exact hempty
          | exact isRead_object (hmembers _ _ _ ‹_›)
    · rw [items] at h
      repeat' split at h
      all_goals cases h
      · exact forall_mem_singleton.mpr (hvalue _ _ _ ‹_›)
      · exact forall_mem_cons.mpr ⟨hvalue _ _ _ ‹_›, hitems _ _ _ ‹_›⟩
    · unfold members at h
      split at h
      · cases h
      · rename_i k t hk
        obtain rfl : fuel = k := Nat.succ.inj hk
        repeat' split at h
        all_goals cases h
        · exact forall_mem_singleton.mpr (hvalue _ _ _ ‹_›)
        · exact forall_mem_cons.mpr ⟨hvalue _ _ _ ‹_›, hmembers _ _ _ ‹_›⟩
      · cases h

theorem isRead_of_parse {text : Text} (h : parse text = .ok v) : IsRead v := by
  rw [parse] at h
  split at h <;> cases h
  rename_i hw
  rw [parseText] at hw
  repeat' split at hw
  all_goals cases hw
  exact (isRead_of_value _).1 _ _ _ ‹_›

/-! ## The end of a document -/

theorem isBlank_of_isNumeric {c : CodePoint} (h : isNumeric c = true) : isBlank c = false := by
  rw [isNumeric, Bool.or_eq_true] at h
  obtain h | h := h
  · simp only [isDigitChar, Bool.and_eq_true, decide_eq_true_eq] at h
    simp only [isBlank, Bool.or_eq_false_iff, Bool.and_eq_false_iff, decide_eq_false_iff_not, beq_eq_false_iff_ne]
    omega
  · have hall : ∀ c ∈ Text.ofString ".-+eNaInfity", isBlank c = false := by decide
    exact hall c (contains_iff_mem.mp h)

theorem stripEnd_eq_self (h : ∀ c ∈ s.getLast?, isBlank c = false) : Text.stripEnd s = s := by
  rw [Text.stripEnd]
  cases hs : s.reverse with
  | nil => rw [reverse_eq_nil_iff.mp hs]; rfl
  | cons c r =>
    have hc : s.getLast? = some c := by rw [← head?_reverse, hs]; rfl
    rw [dropWhile_cons_of_neg (by rw [h c hc]; decide), ← hs, reverse_reverse]

theorem isBlank_getLast?_renderAt (style : Style) (depth : Nat) (v : Json) :
    ∀ c ∈ (renderAt style depth v).getLast?, isBlank c = false := by
  have hclose {s : Text} {x : Char} (hx : isBlank (.char x) = false) :
      ∀ c ∈ (s ++ [CodePoint.char x]).getLast?, isBlank c = false := by
    rw [getLast?_concat]
    rintro c ⟨⟩
    exact hx
  cases v with
  | null => exact hclose (s := "nul") (x := 'l') (by decide)
  | bool b =>
    cases b with
    | true => exact hclose (s := "tru") (x := 'e') (by decide)
    | false => exact hclose (s := "fals") (x := 'e') (by decide)
  | int n => exact fun c hc => isBlank_of_isNumeric (isNumeric_of_mem_intText n (mem_of_getLast? hc))
  | float x => exact fun c hc => isBlank_of_isNumeric (isNumeric_of_mem_floatText x c (mem_of_getLast? hc))
  | str s => exact hclose (by decide)
  | arr items =>
    cases items with
    | nil => exact hclose (s := "[") (x := ']') (by decide)
    | cons x xs => exact hclose (by decide)
  | obj kind fields =>
    cases fields with
    | nil => exact hclose (s := "\x7b") (x := '\x7d') (by decide)
    | cons f fs => exact hclose (by decide)

end Json

namespace View

theorem format_eq (v : Json) : format v = v.stored 0 := by
  rw [format, render, stripEnd_eq_self (isBlank_getLast?_renderAt _ _ v)]
  rfl

end View

namespace Json

theorem parse_of_reads (h : Reads v s) : parse s = .ok v := by
  have hvalue (fuel : Nat) (hfuel : 2 * s.length ≤ fuel) : value fuel s = .ok (v, []) := by
    have hread := h fuel [] nofun hfuel
    rwa [append_nil] at hread
  obtain ⟨hskip, hhead⟩ := skipBlanks_of_value (hvalue _ (Nat.le_refl _))
  have hmark : ¬ (s.head? == some (CodePoint.ofNat 0xFEFF)) = true := by
    intro hmark
    exact (hhead _ (eq_of_beq hmark)).2 rfl
  rw [parse, parseText, if_neg hmark, hskip, hvalue _ (by omega)]
  rfl

mutual

theorem integers_plain : ∀ v : Json, v.plain.integers = v.integers
  | .arr items => integersOfItems_plain items
  | .obj _ fields => integersOfFields_plain fields
  | .null | .bool _ | .int _ | .float _ | .str _ => rfl

theorem integersOfItems_plain : ∀ items, integersOfItems (plainItems items) = integersOfItems items
  | [] => rfl
  | x :: items => congrArg₂ _ (integers_plain x) (integersOfItems_plain items)

theorem integersOfFields_plain : ∀ fields, integersOfFields (plainFields fields) = integersOfFields fields
  | [] => rfl
  | (_, v) :: fields => congrArg₂ _ (integers_plain v) (integersOfFields_plain fields)

end

theorem has_plainFields (fields : List (Key × Json)) (key : Key) : has (plainFields fields) key = has fields key := by
  induction fields with
  | nil => rfl
  | cons f fields ih =>
    obtain ⟨k, v⟩ := f
    rw [plainFields, has, has, get?_cons, get?_cons]
    split
    · rfl
    · exact ih

mutual

theorem isDocument_plain : ∀ v : Json, v.plain.isDocument = v.isDocument
  | .arr items => isDocumentItems_plain items
  | .obj _ fields => isDocumentFields_plain fields
  | .null | .bool _ | .int _ | .float _ | .str _ => rfl

theorem isDocumentItems_plain : ∀ items, isDocumentItems (plainItems items) = isDocumentItems items
  | [] => rfl
  | x :: items => congrArg₂ _ (isDocument_plain x) (isDocumentItems_plain items)

theorem isDocumentFields_plain : ∀ fields, isDocumentFields (plainFields fields) = isDocumentFields fields
  | [] => rfl
  | (.name key, v) :: fields => by
    rw [plainFields, isDocumentFields, has_plainFields, isDocument_plain v, isDocumentFields_plain fields]
    rfl
  | (.null, _) :: _ | (.bool _, _) :: _ | (.int _, _) :: _ | (.float _, _) :: _ => rfl

end

/-- An integer is read back from its text exactly if it does not have too many digits. -/
theorem parse_intText_iff (n : Int) : parse (intText n) = .ok (.int n) ↔ (natText n.natAbs).length ≤ digitLimit := by
  constructor
  · intro h
    exact (isRead_of_parse h).integers n (mem_singleton.mpr rfl)
  · intro h
    exact parse_of_reads (.of_atom fun rest hrest => (atom_intText n hrest).trans (if_neg (by omega)))

end Json

namespace View

/-- **A document is read back from its stored text, and that text holds no character of markup.** The one
thing asked for is that its integers are read back from their own texts. -/
theorem parse_format {v : Json} (hdoc : v.isDocument = true) :
    (parse (format v) = .ok v.plain ↔ ∀ n ∈ v.integers, parse (intText n) = .ok (.int n)) ∧
    ∀ c ∈ Text.ofString "'<>&=", c ∉ format v := by
  constructor
  · simp only [parse_intText_iff]
    constructor
    · intro h n hn
      exact (isRead_of_parse h).integers n (v.integers_plain ▸ hn)
    · intro h
      rw [format_eq]
      exact parse_of_reads (reads_stored hdoc h 0)
  · intro c hc hmem
    have hmarkup : ∀ c ∈ Text.ofString "'<>&=", isPlain c = false := by decide
    exact absurd ((isPlain_of_mem_escapeMarkup hmem).symm.trans (hmarkup c hc)) (by decide)

/-- A view with quotes, escapes, control characters, half of a surrogate pair and markup in its names and texts. -/
def markedUp : Json := .object [
  ("a'b\\u003c", .str [.char '\\', .char '=', .char '"', .char '\x01', .half 0, .char '<', .char '\n']),
  ("<&>", .arr [.int (-1200), .float (.finite true 1023 5), .obj .ordered [(.name "", .null)], .arr [], .str "\\\\'"]),
  ("", .object [])]

theorem parse_format_markedUp :
    markedUp.isDocument = true ∧ parse (format markedUp) = .ok markedUp.plain ∧ .char '=' ∉ format markedUp := by
  have hdoc : markedUp.isDocument = true := by decide
  have hint : ∀ n ∈ markedUp.integers, parse (intText n) = .ok (.int n) := by
    simp only [parse_intText_iff]
    decide
  obtain ⟨hread, hmarkup⟩ := parse_format hdoc
  exact ⟨hdoc, hread.mpr hint, hmarkup _ (by decide)⟩

end View

end ViewLint
