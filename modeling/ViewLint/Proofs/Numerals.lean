import ViewLint.Json.Printer
import ViewLint.Json.Parser
import ViewLint.Proofs.Rounding

/-!
# Numbers in documents

The text of a number is read back as the number. An integer is written with all its digits, and read
back as long as they are not too many. A number in double precision is written with the digits that
have been chosen for it, a point among them or zeros on either side, or with an exponent.

* **`Json.atom_floatText`**, **`Json.atom_intText`**: numbers are read back.
-/

namespace ViewLint.Json

open List Option Binary64

variable {point : Int} {digits rest s : Text} {c : CodePoint}

/-! ## Digits -/

/-- Nothing but decimal digits. -/
def AllDigits (s : Text) : Prop := ∀ c ∈ s, isDigitChar c = true

/-- What follows a run of digits. -/
def StopsDigits (s : Text) : Prop := ∀ c ∈ s.head?, isDigitChar c = false

theorem isDigitChar_char {ch : Char} (h : ch.isDigit = true) : isDigitChar (.char ch) = true := by
  have hrange : 48 ≤ ch.toNat ∧ ch.toNat ≤ 57 := by simpa [Char.isDigit, UInt32.le_iff_toNat_le] using h
  rw [isDigitChar, Bool.and_eq_true, decide_eq_true_iff, decide_eq_true_iff]
  exact hrange

theorem allDigits_natDigits (n : Nat) : AllDigits (natDigits n) := by
  intro c hc
  obtain ⟨ch, hch, rfl⟩ := mem_map.mp hc
  exact isDigitChar_char (Nat.isDigit_of_mem_toDigits (by decide) (by decide) hch)

theorem natDigits_ne_nil (n : Nat) : natDigits n ≠ [] := ne_nil_of_length_pos (length_natDigits_pos n)

theorem digitsValue_natDigits (n : Nat) : digitsValue (natDigits n) = n := by
  have hfold : ∀ acc, ∀ ch ∈ Nat.toDigits 10 n,
      acc * 10 + ((CodePoint.char ch).toNat - 48) = 10 * acc + (ch.toNat - '0'.toNat) :=
    fun acc ch _ => by rw [Nat.mul_comm]; rfl
  rw [digitsValue, natDigits, foldl_map, foldl_ext _ _ 0 hfold]
  exact Nat.ofDigitChars_toDigits (by decide) (by decide)

theorem foldl_digits (s : Text) (n : Nat) :
    s.foldl (fun n c => n * 10 + (c.toNat - 48)) n = n * Nat.pow 10 s.length + digitsValue s := by
  induction s generalizing n with
  | nil => simp [digitsValue]
  | cons c r ih =>
    rw [digitsValue, foldl_cons, foldl_cons, ih, ih (0 * 10 + _), length_cons]
    simp only [Nat.pow_eq]
    ring

theorem digitsValue_append (s t : Text) :
    digitsValue (s ++ t) = digitsValue s * Nat.pow 10 t.length + digitsValue t := by
  rw [digitsValue, foldl_append, foldl_digits t]
  rfl

theorem digitsValue_zeros (n : Nat) : digitsValue (zeros n) = 0 := by
  induction n with
  | zero => rfl
  | succ n ih =>
    rw [zeros, replicate_succ, ← singleton_append, digitsValue_append]
    exact (congrArg (_ + ·) ih).trans (Nat.zero_mul _)

theorem allDigits_zeros (n : Nat) : AllDigits (zeros n) := by
  intro c hc
  rw [eq_of_mem_replicate hc]
  decide

theorem AllDigits.append {t : Text} (hs : AllDigits s) (ht : AllDigits t) : AllDigits (s ++ t) :=
  fun c hc => (mem_append.mp hc).elim (hs c) (ht c)

theorem takeWhile_digits (hs : AllDigits s) (hrest : StopsDigits rest) : (s ++ rest).takeWhile isDigitChar = s := by
  rw [takeWhile_append_of_pos hs]
  cases rest with
  | nil => simp
  | cons c r => rw [takeWhile_cons_of_neg (by simp [hrest c rfl]), append_nil]

theorem dropWhile_digits (hs : AllDigits s) (hrest : StopsDigits rest) : (s ++ rest).dropWhile isDigitChar = rest := by
  rw [dropWhile_append_of_pos hs]
  cases rest with
  | nil => rfl
  | cons c r => rw [dropWhile_cons_of_neg (by simp [hrest c rfl])]

/-! ## Numerals -/

/-- The parts of a number without its sign, as it is written. -/
structure Numeral where
  whole : Text
  fraction : Text := []
  /-- The digits of the exponent, and whether it is negative. -/
  exponent : Option (Bool × Text) := none

namespace Numeral

/-- Digits in every part that is written, and a zero at the front of the whole part only if it stands alone. -/
structure Valid (m : Numeral) : Prop where
  ne_nil : m.whole ≠ []
  whole : AllDigits m.whole
  lone_zero : ∀ r, m.whole = .char '0' :: r → r = []
  fraction : AllDigits m.fraction
  exponent : ∀ e ∈ m.exponent, e.2 ≠ [] ∧ AllDigits e.2

/-- The point with the digits after it, if there are any. -/
def fractionText (m : Numeral) : Text := if m.fraction.isEmpty then [] else '.' :: m.fraction

/-- The exponent with its sign, if there is one. -/
def exponentText (m : Numeral) : Text :=
  match m.exponent with
  | none => []
  | some (negative, digits) => (if negative then "e-" else "e+") ++ digits

def text (m : Numeral) : Text := m.whole ++ m.fractionText ++ m.exponentText

def power (m : Numeral) : Int :=
  match m.exponent with
  | none => 0
  | some (negative, digits) => if negative then -(digitsValue digits : Int) else digitsValue digits

end Numeral

/-- What follows a number that ends. -/
def EndsNumber (s : Text) : Prop :=
  ∀ c ∈ s.head?, isDigitChar c = false ∧ c ≠ .char '.' ∧ c ≠ .char 'e' ∧ c ≠ .char 'E'

variable {m : Numeral} {rest : Text}

theorem wholePart?_append {w : Text} (hne : w ≠ []) (hw : AllDigits w) (hzero : ∀ r, w = .char '0' :: r → r = [])
    (hrest : StopsDigits rest) : wholePart? (w ++ rest) = some (w, rest) := by
  cases w with
  | nil => exact absurd rfl hne
  | cons c r =>
    obtain ⟨hc, hr⟩ := forall_mem_cons.mp hw
    rw [cons_append, wholePart?]
    split
    · rename_i h
      have h := eq_of_beq h
      obtain rfl := hzero r (by rw [h])
      rfl
    · rw [takeWhile_digits hr hrest, dropWhile_digits hr hrest]

theorem fractionPart_append {f : Text} (hf : AllDigits f) (hne : f ≠ []) (hrest : StopsDigits rest) :
    fractionPart (.char '.' :: f ++ rest) = (f, rest) := by
  cases f with
  | nil => exact absurd rfl hne
  | cons c r =>
    obtain ⟨hc, hr⟩ := forall_mem_cons.mp hf
    simp only [cons_append, fractionPart]
    rw [if_pos hc, takeWhile_digits hr hrest, dropWhile_digits hr hrest]

theorem fractionPart_of_head (h : ∀ c ∈ rest.head?, c ≠ .char '.') : fractionPart rest = ([], rest) := by
  unfold fractionPart
  split
  · exact absurd rfl (h _ rfl)
  · rfl

theorem exponentPart_of_head (h : ∀ c ∈ rest.head?, c ≠ .char 'e' ∧ c ≠ .char 'E') :
    exponentPart rest = (none, rest) := by
  cases rest with
  | nil => rfl
  | cons c r =>
    obtain ⟨he, hE⟩ := h c rfl
    rw [exponentPart, if_neg (by simp [he, hE])]

namespace Numeral

theorem head_text (hm : m.Valid) (rest : Text) : ∃ c r, m.text ++ rest = c :: r ∧ isDigitChar c = true := by
  obtain ⟨c, r, hw⟩ := exists_cons_of_ne_nil hm.ne_nil
  exact ⟨c, r ++ m.fractionText ++ m.exponentText ++ rest, by simp [text, hw], hm.whole c (by simp [hw])⟩

theorem stops_exponentText (m : Numeral) (hrest : EndsNumber rest) : StopsDigits (m.exponentText ++ rest) := by
  unfold exponentText
  split
  · exact fun c hc => (hrest c hc).1
  · split <;> rintro c ⟨⟩ <;> decide

theorem stops_fractionText (m : Numeral) (hrest : EndsNumber rest) :
    StopsDigits (m.fractionText ++ (m.exponentText ++ rest)) := by
  unfold fractionText
  split
  · exact stops_exponentText m hrest
  · rintro c ⟨⟩
    decide

theorem exponentPart_text (hm : m.Valid) (hrest : EndsNumber rest) :
    exponentPart (m.exponentText ++ rest) = (m.exponent.map fun _ => m.power, rest) := by
  unfold exponentText power
  split
  · rename_i hnone
    rw [hnone]
    exact exponentPart_of_head fun c hc => (hrest c hc).2.2
  · rename_i negative digits hsome
    obtain ⟨hne, hdigits⟩ := hm.exponent _ hsome
    have hstop : StopsDigits rest := fun c hc => (hrest c hc).1
    rw [hsome]
    cases negative with
    | false | true =>
      simp [exponentPart, Text.ofString, takeWhile_digits hdigits hstop, dropWhile_digits hdigits hstop, hne]

theorem fractionPart_text (hm : m.Valid) (hrest : EndsNumber rest) :
    fractionPart (m.fractionText ++ (m.exponentText ++ rest)) = (m.fraction, m.exponentText ++ rest) := by
  unfold fractionText
  split
  · rename_i hnil
    rw [isEmpty_iff.mp hnil]
    apply fractionPart_of_head
    unfold exponentText
    split
    · exact fun c hc => (hrest c hc).2.1
    · split <;> rintro c ⟨⟩ <;> decide
  · rename_i hne
    exact fractionPart_append hm.fraction (by simpa using hne) (stops_exponentText m hrest)

/-- **A numeral with a point or an exponent is read as a number in double precision.** -/
theorem unsigned_text (hm : m.Valid) (hfloat : m.fraction ≠ [] ∨ m.exponent ≠ none) (negative : Bool)
    (hrest : EndsNumber rest) :
    unsigned negative (m.text ++ rest) = some (.ok (.float (ofDecimal negative
      (digitsValue (m.whole ++ m.fraction)) (m.power - m.fraction.length)), rest)) := by
  have hwhole : wholePart? (m.text ++ rest) = some (m.whole, m.fractionText ++ (m.exponentText ++ rest)) := by
    rw [text, append_assoc, append_assoc]
    exact wholePart?_append hm.ne_nil hm.whole hm.lone_zero (stops_fractionText m hrest)
  have hplain : (m.fraction.isEmpty && (m.exponent.map fun _ => m.power).isNone) = false := by
    rcases hfloat with h | h
    · simp [h]
    · simp [ne_none_iff_isSome.mp h]
  have hpower : (m.exponent.map fun _ => m.power).getD 0 = m.power := by
    unfold power
    cases m.exponent <;> rfl
  simp only [unsigned, hwhole, map_some, fractionPart_text hm hrest, exponentPart_text hm hrest, hplain, hpower,
    Bool.false_eq_true, if_false]

end Numeral

/-! ## Finite numbers -/

theorem digitsValue_lt (hs : AllDigits s) : digitsValue s < Nat.pow 10 s.length := by
  induction s with
  | nil => decide
  | cons c r ih =>
    obtain ⟨hc, hr⟩ := forall_mem_cons.mp hs
    have hc : c.toNat - 48 ≤ 9 := by
      rw [isDigitChar, Bool.and_eq_true, decide_eq_true_iff, decide_eq_true_iff] at hc
      omega
    have hlt := ih hr
    rw [← singleton_append, digitsValue_append]
    have hone : digitsValue [c] = c.toNat - 48 := Nat.zero_add _
    simp only [hone, Nat.pow_eq, length_append, length_singleton, pow_add, pow_one] at *
    nlinarith

theorem head_natDigits {n : Nat} (hn : n ≠ 0) (r : Text) : natDigits n ≠ .char '0' :: r := by
  intro h
  have hr : AllDigits r := fun c hc => allDigits_natDigits n c (h ▸ mem_cons_of_mem _ hc)
  have hvalue : n = digitsValue r := by
    rw [← digitsValue_natDigits n, h, ← singleton_append, digitsValue_append]
    exact (congrArg (· + _) (Nat.zero_mul _)).trans (Nat.zero_add _)
  have hle := pow_length_le hn
  rw [h, length_cons, Nat.add_sub_cancel] at hle
  have := digitsValue_lt hr
  omega

theorem dropZeros_append (s : Text) : (dropZeros s).1 ++ zeros (dropZeros s).2 = s := by
  have hsplit : (dropZeros s).1 ++ (s.reverse.takeWhile (· == .char '0')).reverse = s := by
    rw [dropZeros, ← reverse_append, takeWhile_append_dropWhile, reverse_reverse]
  have hzeros : (s.reverse.takeWhile (· == .char '0')).reverse = zeros (dropZeros s).2 := by
    have hlength := congrArg length hsplit
    rw [length_append] at hlength
    refine eq_replicate_iff.mpr ⟨?_, fun c hc => ?_⟩
    · exact Nat.eq_sub_of_add_eq' hlength
    · exact eq_of_beq (all_eq_true.mp all_takeWhile c (mem_reverse.mp hc))
  rw [← hzeros, hsplit]

/-- Whether a text writes the digits after a point that is moved by some places. -/
def Writes (s digits : Text) (point : Int) : Prop :=
  ∃ m : Numeral, m.Valid ∧ (m.fraction ≠ [] ∨ m.exponent ≠ none) ∧ s = m.text ∧ ∀ negative,
    Binary64.ofDecimal negative (digitsValue (m.whole ++ m.fraction)) (m.power - m.fraction.length) =
      Binary64.ofDecimal negative (digitsValue digits) (point - digits.length)

theorem writes_of_point {whole fraction : Text} (hne : whole ≠ []) (hwhole : AllDigits whole)
    (hzero : ∀ r, whole = .char '0' :: r → r = []) (hfraction : AllDigits fraction) (hne' : fraction ≠ [])
    (hvalue : ∀ negative, ofDecimal negative (digitsValue (whole ++ fraction)) (-fraction.length) =
      ofDecimal negative (digitsValue digits) (point - digits.length)) :
    Writes (whole ++ .char '.' :: fraction) digits point := by
  refine ⟨⟨whole, fraction, none⟩, ⟨hne, hwhole, hzero, hfraction, by simp⟩, .inl hne', ?_, ?_⟩
  · simp [Numeral.text, Numeral.fractionText, Numeral.exponentText, hne']
  · simpa [Numeral.power] using hvalue

section

variable {d : CodePoint} {t : Text} (hdigits : AllDigits (d :: t))

include hdigits

theorem writes_pointAt (hzero : d ≠ .char '0') (point : Int) : Writes (pointAt (d :: t) point) (d :: t) point := by
  have hlone (s r : Text) (h : d :: s = .char '0' :: r) : r = [] := absurd (cons.inj h).1 hzero
  unfold pointAt
  split
  · -- zeros between the point and the digits
    change Writes ([.char '0'] ++ .char '.' :: (zeros (-point).toNat ++ d :: t)) (d :: t) point
    refine writes_of_point (by simp) (forall_mem_singleton.mpr (by decide)) (by simp)
      ((allDigits_zeros _).append hdigits) (by simp) fun negative => ?_
    have hvalue : digitsValue ([.char '0'] ++ (zeros (-point).toNat ++ d :: t)) = digitsValue (d :: t) := by
      rw [digitsValue_append, digitsValue_append, digitsValue_zeros, Nat.zero_mul, Nat.zero_add]
      exact (congrArg (· + _) (Nat.zero_mul _)).trans (Nat.zero_add _)
    rw [hvalue, zeros, length_append, length_replicate]
    congr 1
    omega
  split
  · -- zeros between the digits and the point
    rename_i hlength
    change Writes (d :: t ++ zeros (point.toNat - (d :: t).length) ++ .char '.' :: [.char '0']) (d :: t) point
    refine writes_of_point (by simp) (hdigits.append (allDigits_zeros _)) (hlone _)
      (forall_mem_singleton.mpr (by decide)) (by simp) fun negative => ?_
    have hvalue : digitsValue (d :: t ++ zeros (point.toNat - (d :: t).length) ++ [.char '0']) =
        digitsValue (d :: t) * Nat.pow 10 (point.toNat - (d :: t).length + 1) := by
      rw [append_assoc, digitsValue_append, zeros, ← replicate_succ', length_replicate]
      exact congrArg (_ + ·) (digitsValue_zeros _)
    rw [hvalue, ofDecimal_mul_pow, length_singleton]
    congr 1
    omega
  · -- the point among the digits
    rename_i hlength
    obtain ⟨k, hk⟩ : ∃ k, point.toNat = k + 1 := ⟨point.toNat - 1, by omega⟩
    rw [hk, take_succ_cons, drop_succ_cons]
    have hsplit : d :: t.take k ++ t.drop k = d :: t := congrArg _ (take_append_drop k t)
    have hall := hsplit ▸ hdigits
    rw [append_assoc]
    change Writes (d :: t.take k ++ .char '.' :: t.drop k) (d :: t) point
    refine writes_of_point (by simp) (fun c hc => hall c (mem_append_left _ hc)) (hlone _)
      (fun c hc => hall c (mem_append_right _ hc)) (ne_nil_of_length_pos ?_) fun negative => ?_
    · rw [length_drop]
      rw [length_cons] at hlength
      omega
    · rw [hsplit, length_drop]
      congr 1
      rw [length_cons] at *
      omega

theorem writes_scientific (point : Int) : Writes (scientific (d :: t) (point - 1)) (d :: t) point := by
  obtain ⟨power, hpower⟩ : ∃ power, power = zeros (2 - (natDigits (point - 1).natAbs).length) ++
    natDigits (point - 1).natAbs := ⟨_, rfl⟩
  have hvalue : digitsValue power = (point - 1).natAbs := by
    rw [hpower, digitsValue_append, digitsValue_zeros, Nat.zero_mul, Nat.zero_add, digitsValue_natDigits]
  have hall := forall_mem_cons.mp hdigits
  refine ⟨⟨[d], t, some (decide (point - 1 < 0), power)⟩,
    ⟨by simp, forall_mem_singleton.mpr hall.1, by simp, hall.2, ?_⟩, .inr (by simp), ?_, fun negative => ?_⟩
  · rintro e ⟨⟩
    rw [hpower]
    exact ⟨by simp [natDigits_ne_nil], (allDigits_zeros _).append (allDigits_natDigits _)⟩
  · rw [scientific, Numeral.text, Numeral.fractionText, Numeral.exponentText, hpower]
    cases t <;> by_cases hneg : point - 1 < 0 <;> simp [hneg]
  · have hsum : Numeral.power ⟨[d], t, some (decide (point - 1 < 0), power)⟩ = point - 1 := by
      simp only [Numeral.power, hvalue, decide_eq_true_eq]
      split <;> omega
    rw [hsum, length_cons]
    congr 1
    simp only
    omega

end

/-- The digits of a number without the zeros at their end. -/
theorem dropZeros_natDigits {n : Nat} (hn : n ≠ 0) :
    ∃ c t k, dropZeros (natDigits n) = (c :: t, k) ∧ c ≠ .char '0' ∧ AllDigits (c :: t) ∧
      digitsValue (c :: t) * Nat.pow 10 k = n := by
  have hdigits := dropZeros_append (natDigits n)
  generalize dropZeros (natDigits n) = kept at hdigits
  obtain ⟨kept, k⟩ := kept
  have hvalue : digitsValue kept * Nat.pow 10 k = n := by
    rw [← digitsValue_natDigits n, ← hdigits, digitsValue_append, digitsValue_zeros, zeros, length_replicate]
    rfl
  cases kept with
  | nil => exact absurd (hvalue.symm.trans (Nat.zero_mul _)) hn
  | cons c t =>
    refine ⟨c, t, k, rfl, ?_, fun x hx => ?_, hvalue⟩
    · rintro rfl
      exact head_natDigits hn _ hdigits.symm
    · exact allDigits_natDigits n x (hdigits ▸ mem_append_left _ hx)

/-- **The text of a finite number is a numeral behind its sign, and reads back as the number.** -/
theorem writes_finiteText (negative : Bool) (e : Fin 2047) (f : Fin (Nat.pow 2 52)) :
    ∃ s digits point, finiteText negative e f = (if negative then ("-" : Text) else "") ++ s ∧ Writes s digits point ∧
      ofDecimal negative (digitsValue digits) (point - digits.length) = .finite negative e f := by
  have hread := ofDecimal_shortest negative e f
  unfold finiteText
  generalize shortest negative e f = d at hread
  simp only
  split
  · rename_i hd
    have hzero (exponent : Int) : ofDecimal negative 0 exponent = .finite negative e f := by
      rw [← hread, hd, ofDecimal, ofDecimal, if_pos rfl, if_pos rfl]
    have hdigit : AllDigits [.char '0'] := forall_mem_singleton.mpr (by decide)
    refine ⟨"0.0", [], 0, rfl, ?_, hzero _⟩
    exact writes_of_point (by simp) hdigit (by simp) hdigit (by simp) fun n =>
      (if_pos rfl : ofDecimal n 0 _ = _).trans (if_pos rfl : ofDecimal n 0 _ = _).symm
  · rename_i hd
    obtain ⟨c, t, k, hdrop, hc, hdigits, hvalue⟩ := dropZeros_natDigits hd
    rw [hdrop]
    refine ⟨_, c :: t, (c :: t).length + (d.exponent + k), rfl, ?_, ?_⟩
    · split
      · exact writes_pointAt hdigits hc _
      · exact writes_scientific hdigits _
    · rw [← hread, ← hvalue, ofDecimal_mul_pow]
      congr 1
      omega

/-! ## Numbers in documents -/

/-- No word stands at the front of a number. -/
theorem word?_eq_none (hc : isDigitChar c = true) (r : Text) :
    word? (c :: r) = none ∧ word? (.char '-' :: c :: r) = none := by
  have hne (x : Char) (hx : isDigitChar (.char x) = false) : CodePoint.char x ≠ c := by
    rintro rfl
    exact absurd (hc.symm.trans hx) (by decide)
  have hn := hne 'n' (by decide)
  have ht := hne 't' (by decide)
  have hf := hne 'f' (by decide)
  have hN := hne 'N' (by decide)
  have hI := hne 'I' (by decide)
  have hminus := hne '-' (by decide)
  constructor <;>
  · rw [word?, map_eq_none_iff, find?_eq_none]
    simp [Text.ofString, hn, ht, hf, hN, hI, hminus]

theorem atom_signed (negative : Bool) (hc : isDigitChar c = true) {r : Text}
    {result : Except Failure (Json × Text)} (h : unsigned negative (c :: r) = some result) :
    atom ((if negative then ("-" : Text) else "") ++ c :: r) = result := by
  obtain ⟨hplain, hminus⟩ := word?_eq_none hc r
  cases negative with
  | true =>
    change atom (.char '-' :: c :: r) = result
    simp only [atom, hminus, h, getD_some]
  | false =>
    change atom (c :: r) = result
    simp only [atom, hplain]
    split
    · rename_i heq
      obtain ⟨rfl, -⟩ := cons.inj heq
      exact absurd hc (by decide)
    · rw [h, getD_some]

theorem atom_floatText (x : Binary64) (hrest : EndsNumber rest) :
    atom (floatText x ++ rest) = .ok (.float x, rest) := by
  cases x with
  | nan => rfl
  | infinite negative => cases negative <;> rfl
  | finite negative e f =>
    obtain ⟨s, digits, point, htext, hwrites, hvalue⟩ := writes_finiteText negative e f
    obtain ⟨m, hm, hfloat, rfl, hwritten⟩ := hwrites
    obtain ⟨c, r, hhead, hc⟩ := Numeral.head_text hm rest
    have hread := Numeral.unsigned_text hm hfloat negative hrest
    rw [hhead, hwritten, hvalue] at hread
    change atom (finiteText negative e f ++ rest) = _
    rw [htext, append_assoc, hhead]
    exact atom_signed negative hc hread

theorem unsigned_natText (negative : Bool) (n : Nat) (hrest : EndsNumber rest) :
    unsigned negative (natText n ++ rest) = some (
      if digitLimit < (natText n).length then .error ⟨.tooManyDigits (natText n).length, (natText n ++ rest).length⟩
      else .ok (.int (if negative then -n else n), rest)) := by
  have hlone (r : Text) (h : natDigits n = .char '0' :: r) : r = [] := by
    by_cases hn : n = 0
    · rw [hn] at h
      exact (cons.inj h).2.symm
    · exact absurd h (head_natDigits hn r)
  have hwhole : wholePart? (natText n ++ rest) = some (natText n, rest) :=
    wholePart?_append (natDigits_ne_nil n) (allDigits_natDigits n) hlone fun c hc => (hrest c hc).1
  have hvalue : digitsValue (natText n) = n := digitsValue_natDigits n
  simp only [unsigned, hwhole, map_some, fractionPart_of_head fun c hc => (hrest c hc).2.1,
    exponentPart_of_head fun c hc => (hrest c hc).2.2, hvalue]
  rfl

theorem intText_eq (n : Int) : intText n = (if decide (n < 0) then ("-" : Text) else "") ++ natText n.natAbs := by
  rw [intText]
  simp only [decide_eq_true_eq]
  split <;> rfl

/-- **An integer is read back from its text, unless it has too many digits.** -/
theorem atom_intText (n : Int) (hrest : EndsNumber rest) : atom (intText n ++ rest) =
      if digitLimit < (natText n.natAbs).length then
        .error ⟨.tooManyDigits (natText n.natAbs).length, (natText n.natAbs ++ rest).length⟩
      else .ok (.int n, rest) := by
  have hread := unsigned_natText (decide (n < 0)) n.natAbs hrest
  have hn : (if decide (n < 0) = true then -(n.natAbs : Int) else n.natAbs) = n := by
    simp only [decide_eq_true_eq]
    split <;> omega
  rw [hn] at hread
  obtain ⟨c, r, hcons⟩ := exists_cons_of_ne_nil (natDigits_ne_nil n.natAbs)
  have hc : isDigitChar c = true := allDigits_natDigits n.natAbs c (hcons ▸ mem_cons_self)
  change natText n.natAbs = _ at hcons
  rw [intText_eq, append_assoc]
  rw [hcons] at hread ⊢
  exact atom_signed _ hc hread

/-! ## Characters of numbers -/

/-- The characters that the texts of numbers are made of. -/
def isNumeric (c : CodePoint) : Bool := isDigitChar c || (Text.ofString ".-+eNaInfity").contains c

theorem isNumeric_of_isDigitChar (h : isDigitChar c = true) : isNumeric c = true := by
  rw [isNumeric, h, Bool.true_or]

theorem isNumeric_of_mem_sign (negative : Bool) (h : c ∈ if negative then ("-" : Text) else "") :
    isNumeric c = true := by
  cases negative with
  | true => rw [mem_singleton.mp h]; decide
  | false => cases h

theorem Numeral.isNumeric_of_mem {m : Numeral} (hm : m.Valid) (h : c ∈ m.text) : isNumeric c = true := by
  rw [text, mem_append, mem_append] at h
  obtain (h | h) | h := h
  · exact isNumeric_of_isDigitChar (hm.whole c h)
  · rw [fractionText] at h
    split at h
    · cases h
    · obtain rfl | h := mem_cons.mp h
      · decide
      · exact isNumeric_of_isDigitChar (hm.fraction c h)
  · rw [exponentText] at h
    split at h
    · cases h
    · rename_i negative digits hexponent
      obtain h | h := mem_append.mp h
      · have hmark : ∀ b : Bool, ∀ c ∈ Text.ofString (if b then "e-" else "e+"), isNumeric c = true := by decide
        exact hmark negative c h
      · exact isNumeric_of_isDigitChar ((hm.exponent _ hexponent).2 c h)

theorem isNumeric_of_mem_floatText (x : Binary64) : ∀ c ∈ floatText x, isNumeric c = true := by
  cases x with
  | nan => decide
  | infinite negative => cases negative <;> decide
  | finite negative e f =>
    obtain ⟨s, digits, point, htext, ⟨m, hm, -, rfl, -⟩, -⟩ := writes_finiteText negative e f
    intro c hc
    change c ∈ finiteText negative e f at hc
    rw [htext, mem_append] at hc
    exact hc.elim (isNumeric_of_mem_sign negative) (Numeral.isNumeric_of_mem hm)

theorem isNumeric_of_mem_intText (n : Int) (h : c ∈ intText n) : isNumeric c = true := by
  rw [intText_eq, mem_append] at h
  exact h.elim (isNumeric_of_mem_sign _) fun h => isNumeric_of_isDigitChar (allDigits_natDigits n.natAbs c h)

end ViewLint.Json
