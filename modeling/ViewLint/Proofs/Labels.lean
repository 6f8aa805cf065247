import ViewLint.Proofs.CheckerReports
import ViewLint.Proofs.Numerals
import ViewLint.Run.Aggregate

/-!
# Numbers behind labels

A file of counts is read by its labels: the number of a label is the first one that stands behind it, and
what follows does not count.

* **`BatchCounts.first?_figureLines`**: the digits of a label among lines of wordings and figures.
* `BatchCounts.leadingGroup`, `BatchCounts.grouped_eq`: numbers with their digits in groups.
-/

namespace ViewLint

open List Text

variable {c : CodePoint} {label text : Text}

/-! ## Lines without a label -/

namespace Text

theorem first?_append {α : Type} {step : Text → Option α} {front rest : Text}
    (h : ∀ t, t ≠ [] → t <:+ front → step (t ++ rest) = none) : first? step (front ++ rest) = first? step rest := by
  induction front with
  | nil => rfl
  | cons c r ih =>
    have hstep := h (c :: r) (cons_ne_nil _ _) suffix_rfl
    rw [cons_append] at hstep ⊢
    rw [first?, hstep]
    exact ih fun t hne hsuffix => h t hne (hsuffix.trans (suffix_cons c r))

/-- A line without a label is passed over. -/
theorem after?_line {l t : Text} (hbreak : .char '\n' ∉ label) (hl : ¬ label <:+: l) (hne : t ≠ [])
    (ht : t <:+ l ++ [CodePoint.char '\n']) (rest : Text) : after? label (t ++ rest) = none := by
  obtain rfl | ⟨u, rfl, hu⟩ := suffix_concat_iff.mp ht
  · exact absurd rfl hne
  · refine if_neg fun hprefix => hl ?_
    rw [append_assoc] at hprefix
    exact ((prefix_append_stop hbreak).mp ( isPrefixOf_iff_prefix.mp hprefix)).isInfix.trans hu.isInfix

end Text

namespace BatchCounts

variable {n k : Nat}

theorem first?_line {l : Text} (hbreak : .char '\n' ∉ label) (hl : ¬ label <:+: l) (rest : Text) :
    first? (digitsAfter? label) (l ++ .char '\n' :: rest) = first? (digitsAfter? label) rest := by
  have hsplit : l ++ CodePoint.char '\n' :: rest = (l ++ [.char '\n']) ++ rest := by simp
  rw [hsplit]
  refine first?_append fun t hne ht => ?_
  rw [digitsAfter?, after?_line hbreak hl hne ht]
  rfl

/-! ## The digits behind a label -/

theorem isBlank_of_isDigit (h : isDigit c = true) : isBlank c = false := by
  have hzeros : ∀ z ∈ digitZeros, (32 < z ∧ z + 9 < 0x85) ∨ (0xA0 < z ∧ z + 9 < 0x1680) ∨
      (0x1680 < z ∧ z + 9 < 0x2000) ∨ (0x3000 < z) := by decide
  rw [isDigit, digitValue?, Option.isSome_map, find?_isSome] at h
  obtain ⟨z, hz, hrange⟩ := h
  have hz := hzeros z hz
  simp only [Bool.and_eq_true, decide_eq_true_eq] at hrange
  simp only [isBlank, Bool.or_eq_false_iff, Bool.and_eq_false_iff, decide_eq_false_iff_not, beq_eq_false_iff_ne]
  omega

theorem digitsAfter?_label {blanks digits rest : Text} (hblanks : blanks ≠ [] ∧ ∀ c ∈ blanks, isBlank c = true)
    (hdigits : digits ≠ [] ∧ ∀ c ∈ digits, isDigit c = true) (hrest : ∀ c ∈ rest.head?, isDigit c = false) :
    digitsAfter? label (label ++ (blanks ++ (digits ++ rest))) = some digits := by
  obtain ⟨b, bs, rfl⟩ := exists_cons_of_ne_nil hblanks.1
  obtain ⟨d, ds, rfl⟩ := exists_cons_of_ne_nil hdigits.1
  have hafter : after? label (label ++ (b :: bs ++ (d :: ds ++ rest))) = some (b :: bs ++ (d :: ds ++ rest)) := by
    rw [after?, if_pos ( isPrefixOf_iff_prefix.mpr (prefix_append _ _)), drop_left]
  have hstrip : stripStart (b :: bs ++ (d :: ds ++ rest)) = d :: ds ++ rest := by
    rw [stripStart, dropWhile_append_of_pos hblanks.2, cons_append, dropWhile_cons_of_neg]
    rw [isBlank_of_isDigit (hdigits.2 d mem_cons_self)]
    decide
  have htake : (d :: ds ++ rest).takeWhile isDigit = d :: ds := by
    rw [takeWhile_append_of_pos hdigits.2]
    cases rest with
    | nil => simp
    | cons c r => rw [takeWhile_cons_of_neg (by rw [hrest c rfl]; decide), append_nil]
  rw [digitsAfter?, hafter]
  simp only [bind, Option.bind, hstrip, htake]
  simp [hblanks.2 b mem_cons_self]

/-! ## Files of counts -/

/-- The characters that a number or a time is written in. -/
def isFigure (c : CodePoint) : Bool := isAsciiDigit c || (Text.ofString "-:, ").contains c

def figureLines (lines : List (Text × Text)) : Text := (lines.map fun l => l.1 ++ l.2 ++ [.char '\n']).flatten

theorem figureLines_append (lines : List (Text × Text)) (rest : List Text) :
    figureLines lines ++ (rest.map (· ++ ofString "\n")).flatten =
      (((lines.map fun l => l.1 ++ l.2) ++ rest).map (· ++ ofString "\n")).flatten := by
  rw [map_append, flatten_append, map_map]
  rfl

/-- Whether a label has a character that is neither in a wording nor a figure. -/
def isForeign (label wording : Text) : Bool := label.any fun c => !wording.contains c && !isFigure c

theorem not_infix_of_isForeign {wording figures : Text} (h : isForeign label wording = true)
    (hfigures : ∀ c ∈ figures, isFigure c = true) : ¬ label <:+: wording ++ figures := by
  intro hwithin
  obtain ⟨c, hc, hforeign⟩ := any_eq_true.mp h
  rw [Bool.and_eq_true, Bool.not_eq_true', Bool.not_eq_true', contains_eq_mem, decide_eq_false_iff_not] at hforeign
  obtain hmem | hmem := mem_append.mp (hwithin.subset hc)
  · exact hforeign.1 hmem
  · exact absurd ((hfigures c hmem).symm.trans hforeign.2) (by decide)

theorem first?_figureLines {blanks digits rest : Text} {front : List (Text × Text)}
    (hbreak : .char '\n' ∉ label) (hne : label ≠ [])
    (hfront : ∀ l ∈ front, isForeign label l.1 = true ∧ ∀ c ∈ l.2, isFigure c = true)
    (hblanks : blanks ≠ [] ∧ ∀ c ∈ blanks, isBlank c = true) (hdigits : digits ≠ [] ∧ ∀ c ∈ digits, isDigit c = true)
    (hrest : ∀ c ∈ rest.head?, isDigit c = false) :
    first? (digitsAfter? label) (figureLines front ++ (label ++ (blanks ++ (digits ++ rest)))) = some digits := by
  induction front with
  | nil =>
    obtain ⟨c, r, rfl⟩ := exists_cons_of_ne_nil hne
    have hdigits := @digitsAfter?_label (c :: r) blanks digits rest hblanks hdigits hrest
    rw [cons_append] at hdigits
    change first? _ (c :: (r ++ _)) = _
    rw [first?, hdigits]
  | cons l front ih =>
    obtain ⟨hl, hfront⟩ := forall_mem_cons.mp hfront
    have hsplit : figureLines (l :: front) ++ (label ++ (blanks ++ (digits ++ rest))) =
        l.1 ++ l.2 ++ .char '\n' :: (figureLines front ++ (label ++ (blanks ++ (digits ++ rest)))) := by
      simp [figureLines]
    rw [hsplit, first?_line hbreak (not_infix_of_isForeign hl.1 hl.2), ih hfront]

/-- Whether a label stands in one of several wordings, with blanks behind it, and is foreign to those before. -/
def isLabelAt (label : Text) (wordings : List Text) (k : Nat) : Bool :=
  !label.isEmpty && !label.contains '\n' && (wordings.take k).all (isForeign label) && wordings[k]?.any fun w =>
      label.isPrefixOf w && !(w.drop label.length).isEmpty && (w.drop label.length).all isBlank

theorem zip_eq_take_append {wordings figures : List Text} {w f : Text} (hw : wordings[k]? = some w)
    (hf : figures[k]? = some f) :
    ∃ back, wordings.zip figures = (wordings.take k).zip (figures.take k) ++ (w, f) :: back := by
  have hk : (wordings.zip figures)[k]? = some (w, f) := getElem?_zip_eq_some.mpr ⟨hw, hf⟩
  obtain ⟨hlt, hget⟩ := List.getElem?_eq_some_iff.mp hk
  have htake : (wordings.zip figures).take k = (wordings.take k).zip (figures.take k) := take_zipWith
  refine ⟨(wordings.zip figures).drop (k + 1), ?_⟩
  rw [← htake, ← hget, getElem_cons_drop, take_append_drop]

theorem number?_of_first?
    (h : first? (digitsAfter? label) text = some (natText n)) (hn : n < Nat.pow 10 Json.digitLimit) :
    number? label text = .ok (some n) := by
  have hlength : (natText n).length ≤ Json.digitLimit := (length_natDigits_le_iff (by decide)).mpr hn
  rw [number?, h]
  simp only [if_neg (Nat.not_lt.mpr hlength), digitsValue_natText]

theorem eq_of_number? {found : Option Nat}
    (h : first? (digitsAfter? label) text = some (natText n)) (hfound : number? label text = .ok found) :
    found = some n := by
  rw [number?, h] at hfound
  simp only [digitsValue_natText] at hfound
  split at hfound
  · cases hfound
  · cases hfound
    rfl

/-- **The number of a label is found among wordings and figures.** -/
theorem first?_of_isLabelAt {wordings figures : List Text}
    (hlabel : isLabelAt label wordings k = true) (hfigures : ∀ f ∈ figures, ∀ c ∈ f, isFigure c = true)
    {tail : Text} (hnumber : figures[k]? = some (natText n ++ tail))
    (htail : ∀ c ∈ tail.head?, isDigit c = false) (rest : Text) :
    first? (digitsAfter? label) (figureLines (wordings.zip figures) ++ rest) = some (natText n) := by
  simp only [isLabelAt, Bool.and_eq_true, Bool.not_eq_true', isEmpty_eq_false_iff, contains_eq_mem,
    decide_eq_false_iff_not, all_eq_true, Option.any_eq_true, isPrefixOf_iff_prefix] at hlabel
  obtain ⟨⟨⟨hne, hbreak⟩, hforeign⟩, w, hwording, ⟨⟨blanks, rfl⟩, hblanks⟩, hall⟩ := hlabel
  rw [drop_left] at hblanks hall
  obtain ⟨back, hzip⟩ := zip_eq_take_append hwording hnumber
  have hsplit : figureLines (wordings.zip figures) ++ rest =
      figureLines ((wordings.take k).zip (figures.take k)) ++ (label ++ (blanks ++ (natText n ++
        (tail ++ .char '\n' :: (figureLines back ++ rest))))) := by
    simp [hzip, figureLines]
  rw [hsplit]
  refine first?_figureLines hbreak hne (fun l hl => ?_) ⟨hblanks, hall⟩
    ⟨natText_ne_nil n, fun _ => isDigit_of_mem_natText⟩ ?_
  · obtain ⟨hword, hfig⟩ := of_mem_zip hl
    exact ⟨hforeign _ hword, hfigures _ (take_subset _ _ hfig)⟩
  · intro c hc
    cases tail with
    | nil => cases hc; decide
    | cons t ts => exact htail c hc

theorem return_not_mem_figureLines {wordings figures : List Text} (hwordings : ∀ w ∈ wordings, .char '\r' ∉ w)
    (hfigures : ∀ f ∈ figures, ∀ c ∈ f, isFigure c = true) :
    .char '\r' ∉ figureLines (wordings.zip figures) := by
  intro h
  obtain ⟨l, hl, hmem⟩ := mem_flatten.mp h
  obtain ⟨⟨w, f⟩, hwf, rfl⟩ := mem_map.mp hl
  obtain ⟨hw, hf⟩ := of_mem_zip hwf
  simp only [mem_append, mem_singleton] at hmem
  obtain (hmem | hmem) | hmem := hmem
  · exact hwordings w hw hmem
  · exact absurd (hfigures f hf _ hmem) (by decide)
  · cases hmem

/-- The errors that a file states, if it states how many files there were. -/
theorem errors_of_read {files errors : Nat} {found : Option BatchCounts}
    (hfiles : first? (digitsAfter? "Files processed:") text = some (natText files))
    (herrors : first? (digitsAfter? "Total errors:") text = some (natText errors))
    (h : read text = .ok found) : ∃ counts, found = some counts ∧ counts.errors = errors := by
  have hbind {α β : Type} {x : Except Fault α} {f : α → Except Fault β} {b : β} (h : x >>= f = .ok b) :
      ∃ a, x = .ok a ∧ f a = .ok b := by
    cases x with
    | error e => cases h
    | ok a => exact ⟨a, rfl, h⟩
  obtain ⟨n, hn, h⟩ := hbind h
  cases eq_of_number? hfiles hn
  obtain ⟨warnings, -, h⟩ := hbind h
  obtain ⟨e, he, h⟩ := hbind h
  obtain ⟨issues, -, h⟩ := hbind h
  obtain ⟨clean, -, h⟩ := hbind h
  obtain ⟨m, hm, he⟩ := hbind he
  cases eq_of_number? herrors hm
  cases he
  cases h
  exact ⟨_, rfl, rfl⟩

/-! ## Numbers in groups -/

theorem isFigure_of_mem_natText (h : c ∈ natText n) : isFigure c = true := by
  have hdigit : isAsciiDigit c = true := Json.allDigits_natDigits n c h
  rw [isFigure, hdigit, Bool.true_or]

theorem isFigure_of_mem_intText {n : Int} (h : c ∈ intText n) : isFigure c = true := by
  rw [intText] at h
  split at h
  · obtain h | h := mem_append.mp h
    · rw [mem_singleton.mp h]
      decide
    · exact isFigure_of_mem_natText h
  · exact isFigure_of_mem_natText h

/-- What stands before the first comma of a number in groups. -/
def leadingGroup (n : Nat) : Nat := if n < 1000 then n else leadingGroup (n / 1000)

theorem leadingGroup_lt (n : Nat) : leadingGroup n < 1000 := by
  fun_induction leadingGroup n with
  | case1 n h => exact h
  | case2 n _ ih => exact ih

theorem leadingGroup_eq_self_iff : leadingGroup n = n ↔ n < 1000 := by
  constructor
  · intro h
    exact h ▸ leadingGroup_lt n
  · intro h
    rw [leadingGroup, if_pos h]

theorem groupReversed_of_length_le {s : Text} (h : s.length ≤ 3) : groupReversed s = s := by
  match s, h with
  | [], _ | [_], _ | [_, _], _ | [_, _, _], _ => rfl

/-- The last three digits of a number of more digits. -/
theorem natDigits_of_le (h : 1000 ≤ n) : ∃ x y z : CodePoint, natDigits n = natDigits (n / 1000) ++ [x, y, z] := by
  have hlast {m : Nat} (hm : 10 ≤ m) : natDigits m = natDigits (m / 10) ++ [.char (m % 10).digitChar] := by
    rw [natDigits, Nat.toDigits_of_base_le (by decide) hm, map_append]
    rfl
  have hdiv : n / 10 / 10 / 10 = n / 1000 := by rw [Nat.div_div_eq_div_mul, Nat.div_div_eq_div_mul]
  refine ⟨.char (n / 10 / 10 % 10).digitChar, .char (n / 10 % 10).digitChar, .char (n % 10).digitChar, ?_⟩
  rw [hlast (by omega : 10 ≤ n), hlast (by omega : 10 ≤ n / 10), hlast (by omega : 10 ≤ n / 10 / 10), hdiv,
    append_assoc, append_assoc]
  rfl

theorem grouped_of_le (h : 1000 ≤ n) : ∃ x y z : CodePoint, grouped n = grouped (n / 1000) ++ [.char ',', x, y, z] ∧
      ∀ c ∈ [x, y, z], isFigure c = true := by
  obtain ⟨x, y, z, hdigits⟩ := natDigits_of_le h
  obtain ⟨d, r, hrest⟩ := exists_cons_of_ne_nil (reverse_ne_nil_iff.mpr (Json.natDigits_ne_nil (n / 1000)))
  refine ⟨x, y, z, ?_, fun c hc => isFigure_of_mem_natText (hdigits ▸ mem_append_right _ hc : c ∈ natDigits n)⟩
  have hreverse : (natDigits n).reverse = z :: y :: x :: d :: r := by rw [hdigits, reverse_append, hrest]; rfl
  rw [grouped, grouped, hreverse, hrest, groupReversed]
  simp

theorem grouped_eq (n : Nat) :
    ∃ tail, grouped n = natText (leadingGroup n) ++ tail ∧ (∀ c ∈ tail.head?, isDigit c = false) ∧
      ∀ c ∈ tail, isFigure c = true := by
  fun_induction leadingGroup n with
  | case1 n h =>
    have hlength : (natDigits n).reverse.length ≤ 3 := by
      rw [length_reverse]
      exact (length_natDigits_le_iff (by decide)).mpr h
    refine ⟨[], ?_, nofun, nofun⟩
    rw [grouped, groupReversed_of_length_le hlength, reverse_reverse, append_nil]
    rfl
  | case2 n h ih =>
    obtain ⟨tail, hgrouped, hhead, htail⟩ := ih
    obtain ⟨x, y, z, hlast, hxyz⟩ := grouped_of_le (Nat.le_of_not_lt h)
    refine ⟨tail ++ [.char ',', x, y, z], by rw [hlast, hgrouped, append_assoc], fun c hc => ?_, fun c hc => ?_⟩
    · cases tail with
      | nil => cases hc; decide
      | cons t ts => exact hhead c hc
    · obtain hc | hc := mem_append.mp hc
      · exact htail c hc
      · obtain rfl | hc := mem_cons.mp hc
        · decide
        · exact hxyz c hc

end BatchCounts

end ViewLint
