import ViewLint.Proofs.Cutting
import ViewLint.Proofs.StoredText

/-!
# Paths told apart by their display

Quoting can be read back: the first code point of a quoted text is its mark, each escape has a fixed
width, and the mark comes again only at the end. So the display of a path whose steps are names and
indices determines the path.

* `Text.unquoteChar?`: what a reader of a quoted text meets first.
* `Text.quote_append_inj`: a quoted text is told apart from what follows it.
-/

namespace ViewLint

open List Json

/-! ## Hexadecimal digits -/

/-- The number that hexadecimal digits write. -/
def hexNumber (s : Text) : Nat := s.foldl (fun n c => n * 16 + (Json.hexValue? c).getD 0) 0

theorem hexValue?_digitChar (d : Nat) (h : d < 16) : hexValue? (.char d.digitChar) = some d := by
  have hall : ∀ d : Fin 16, hexValue? (.char d.val.digitChar) = some d.val := by decide
  exact hall ⟨d, h⟩

theorem hexNumber_concat (s : Text) (c : CodePoint) :
    hexNumber (s ++ [c]) = hexNumber s * 16 + (hexValue? c).getD 0 := by
  simp [hexNumber, foldl_append]

theorem hexNumber_zeros_append (k : Nat) (s : Text) : hexNumber (replicate k (.char '0') ++ s) = hexNumber s := by
  induction k with
  | zero => rfl
  | succ k ih => rwa [replicate_succ, cons_append]

theorem hexNumber_toDigits (n : Nat) : hexNumber ((Nat.toDigits 16 n).map .char) = n := by
  induction n using Nat.strongRecOn with
  | ind n ih =>
    rcases Nat.lt_or_ge n 16 with hn | hn
    · rw [Nat.toDigits_of_lt_base hn]
      simp [hexNumber, hexValue?_digitChar n hn]
    · rw [Nat.toDigits_of_base_le (by decide) hn, map_append, map_singleton, hexNumber_concat,
        ih _ (by omega), hexValue?_digitChar _ (Nat.mod_lt n (by decide)), Option.getD_some]
      omega

theorem length_hexDigits {width n : Nat} (hwidth : 0 < width) (h : n < 16 ^ width) :
    (hexDigits width n).length = width := by
  have hle := (Nat.length_toDigits_le_iff (by decide : 1 < 16) hwidth).2 h
  simp only [hexDigits, length_append, length_replicate, length_map]
  omega

/-! ## Quoted text -/

theorem CodePoint.toNat_lt (c : CodePoint) : c.toNat < 16 ^ 8 := by
  cases c with
  | char c =>
    have hvalid : c.toNat < 0xD800 ∨ 0xDFFF < c.toNat ∧ c.toNat < 0x110000 := c.valid
    rw [toNat]
    omega
  | half k =>
    rw [toNat]
    omega

namespace Text

variable {mark c : CodePoint}

/-- The code point that an escape of a fixed width writes, and what follows it. -/
def readHex (width : Nat) (s : Text) : CodePoint × Text :=
  (.ofNat (hexNumber (s.take width)), s.drop width)

/-- The first code point of a text that stands between marks, and what follows it. -/
def unquoteChar? : Text → Option (CodePoint × Text)
  | .char '\\' :: .char 't' :: s => some (.char '\t', s)
  | .char '\\' :: .char 'n' :: s => some (.char '\n', s)
  | .char '\\' :: .char 'r' :: s => some (.char '\r', s)
  | .char '\\' :: .char 'x' :: s => some (readHex 2 s)
  | .char '\\' :: .char 'u' :: s => some (readHex 4 s)
  | .char '\\' :: .char 'U' :: s => some (readHex 8 s)
  | .char '\\' :: c :: s => some (c, s)
  | c :: s => some (c, s)
  | [] => none

/-- The marks that go around a text. -/
def isMark (c : CodePoint) : Bool := c == '\'' || c == '"'

theorem isMark_quoteMark (s : Text) : isMark (quoteMark s) = true := by
  unfold quoteMark
  split <;> rfl

theorem readHex_hexDigits {width : Nat} (hwidth : 0 < width) (h : c.toNat < 16 ^ width)
    (s : Text) : readHex width (hexDigits width c.toNat ++ s) = (c, s) := by
  have hlength := length_hexDigits hwidth h
  rw [readHex, take_left' hlength, drop_left' hlength, hexDigits, hexNumber_zeros_append,
    hexNumber_toDigits, CodePoint.ofNat_toNat]

theorem unquoteChar?_plain (h : c ≠ .char '\\') (s : Text) : unquoteChar? (c :: s) = some (c, s) := by
  unfold unquoteChar?
  split <;> simp_all

theorem unquoteChar?_quoteChar (hmark : isMark mark = true) (c : CodePoint) (s : Text) :
    unquoteChar? (quoteChar mark c ++ s) = some (c, s) := by
  unfold quoteChar
  split_ifs with hself htab hline hreturn hprintable hbyte hunit
  · have hc : c = .char '\\' ∨ c = .char '\'' ∨ c = .char '"' := by
      simp only [isMark, Bool.or_eq_true, beq_iff_eq] at hmark hself
      rcases hself with rfl | rfl
      · exact .inr hmark
      · exact .inl rfl
    rcases hc with rfl | rfl | rfl <;> rfl
  · rw [beq_iff_eq.1 htab]
    rfl
  · rw [beq_iff_eq.1 hline]
    rfl
  · rw [beq_iff_eq.1 hreturn]
    rfl
  · have hslash : c ≠ .char '\\' := by
      rintro rfl
      simp at hself
    exact unquoteChar?_plain hslash s
  · exact congrArg some (readHex_hexDigits (by decide) (by omega) s)
  · exact congrArg some (readHex_hexDigits (by decide) (by omega) s)
  · exact congrArg some (readHex_hexDigits (by decide) (CodePoint.toNat_lt c) s)

theorem quoteChar_append_ne (hmark : isMark mark = true) (c : CodePoint) (s r : Text) :
    quoteChar mark c ++ s ≠ mark :: r := by
  have hslash : mark ≠ .char '\\' := by
    rintro rfl
    exact absurd hmark (by decide)
  intro h
  have hread := unquoteChar?_quoteChar hmark c s
  rw [h, unquoteChar?_plain hslash] at hread
  -- then the code point is the mark itself, and its quoted form opens with a backslash
  obtain ⟨rfl, -⟩ := Prod.mk.inj (Option.some.inj hread)
  simp only [quoteChar, beq_self_eq_true, Bool.true_or, if_true, cons_append, cons.injEq] at h
  exact hslash h.1.symm

theorem flatMap_quoteChar_inj (hmark : isMark mark = true) :
    ∀ {s t r r' : Text}, s.flatMap (quoteChar mark) ++ mark :: r = t.flatMap (quoteChar mark) ++ mark :: r' →
      s = t ∧ r = r'
  | [], [], _, _, h => ⟨rfl, (cons.inj h).2⟩
  | [], c :: t, _, _, h => by
    rw [flatMap_cons, append_assoc] at h
    exact absurd h.symm (quoteChar_append_ne hmark c _ _)
  | c :: s, [], _, _, h => by
    rw [flatMap_cons, append_assoc] at h
    exact absurd h (quoteChar_append_ne hmark c _ _)
  | c :: s, d :: t, _, _, h => by
    have hread := congrArg unquoteChar? h
    simp only [flatMap_cons, append_assoc, unquoteChar?_quoteChar hmark] at hread
    obtain ⟨rfl, hrest⟩ := Prod.mk.inj (Option.some.inj hread)
    obtain ⟨rfl, rfl⟩ := flatMap_quoteChar_inj hmark hrest
    exact ⟨rfl, rfl⟩

theorem quote_append_inj {s t r r' : Text} (h : quote s ++ r = quote t ++ r') : s = t ∧ r = r' := by
  simp only [quote, cons_append, append_assoc, cons.injEq, nil_append] at h
  obtain ⟨hmark, hrest⟩ := h
  rw [hmark] at hrest
  exact flatMap_quoteChar_inj (isMark_quoteMark t) hrest

end Text

/-! ## Steps -/

namespace Json

/-- Whether a value is a name or an index. -/
def isStep : Json → Bool
  | .str _ | .int _ => true
  | _ => false

theorem minus_mem_intText {n : Int} : .char '-' ∈ intText n ↔ n < 0 := by
  have hdigits := not_mem_natText '-' rfl n.natAbs
  rw [intText]
  split
  · next hneg => exact ⟨fun _ => hneg, fun _ => mem_cons_self⟩
  · next hneg => exact ⟨fun h => absurd h hdigits, fun h => absurd h hneg⟩

theorem intText_inj {m n : Int} (h : intText m = intText n) : m = n := by
  have hsign : m < 0 ↔ n < 0 := by rw [← minus_mem_intText, h, minus_mem_intText]
  have habs : m.natAbs = n.natAbs := by
    rw [intText_eq, intText_eq, decide_eq_decide.2 hsign] at h
    exact natText_inj (append_cancel_left h)
  omega

/-- A number ends where the first code point comes that no number holds. -/
theorem intText_append_inj {m n : Int} {c d : CodePoint} (hc : isNumeric c = false) (hd : isNumeric d = false)
    {r r' : Text} (h : intText m ++ c :: r = intText n ++ d :: r') : m = n ∧ c :: r = d :: r' := by
  have htake : ∀ (k : Int) {e : CodePoint} (s : Text), isNumeric e = false →
      (intText k ++ e :: s).takeWhile isNumeric = intText k := fun k e s he => by
    rw [takeWhile_append_of_pos fun x => isNumeric_of_mem_intText k, takeWhile_cons_of_neg (by simp [he]), append_nil]
  have hnumber := congrArg (takeWhile isNumeric) h
  rw [htake m r hc, htake n r' hd] at hnumber
  obtain rfl := intText_inj hnumber
  exact ⟨rfl, append_cancel_left h⟩

theorem head_intText (n : Int) (r : Text) : ∃ c s, intText n ++ r = c :: s ∧ isNumeric c = true := by
  cases htext : intText n with
  | nil =>
    rw [intText_eq] at htext
    exact absurd (append_eq_nil_iff.1 htext).2 (natText_ne_nil _)
  | cons c s => exact ⟨c, s ++ r, rfl, isNumeric_of_mem_intText n (htext ▸ mem_cons_self)⟩

theorem quote_ne_intText (s r r' : Text) (n : Int) : Text.quote s ++ r ≠ intText n ++ r' := by
  intro h
  obtain ⟨c, t, htext, hc⟩ := head_intText n r'
  rw [htext] at h
  have hmark : Text.quoteMark s = c := (cons.inj h).1
  have := Text.isMark_quoteMark s
  simp only [Text.isMark, Bool.or_eq_true, beq_iff_eq] at this
  rcases this with hquote | hquote <;> rw [← hmark, hquote] at hc <;> exact absurd hc (by decide)

theorem quoted_append_inj {x y : Json} (hx : x.isStep = true) (hy : y.isStep = true) {c d : CodePoint}
    (hc : isNumeric c = false) (hd : isNumeric d = false) {r r' : Text}
    (h : x.quoted ++ c :: r = y.quoted ++ d :: r') : x = y ∧ c :: r = d :: r' := by
  cases x <;> cases y <;> simp only [isStep, Bool.false_eq_true] at hx hy
  case str.str s t =>
    obtain ⟨rfl, hrest⟩ := Text.quote_append_inj h
    exact ⟨rfl, hrest⟩
  case str.int s n => exact absurd h (quote_ne_intText s _ _ n)
  case int.str n s => exact absurd h.symm (quote_ne_intText s _ _ n)
  case int.int m n =>
    obtain ⟨rfl, hrest⟩ := intText_append_inj hc hd h
    exact ⟨rfl, hrest⟩

theorem head_quoted {x : Json} (hx : x.isStep = true) (r : Text) : ∃ c s, x.quoted ++ r = c :: s ∧ c ≠ .char ']' := by
  cases x <;> simp only [isStep, Bool.false_eq_true] at hx
  case str s =>
    refine ⟨_, _, rfl, fun h => ?_⟩
    have := Text.isMark_quoteMark s
    rw [h] at this
    exact absurd this (by decide)
  case int n =>
    obtain ⟨c, s, htext, hc⟩ := head_intText n r
    refine ⟨c, s, htext, ?_⟩
    rintro rfl
    exact absurd hc (by decide)

end Json

/-! ## Paths -/

namespace Path

/-- Whether every step of a path is a name or an index. -/
def isProper (path : Path) : Bool := path.all Json.isStep

/-- What stands behind the first of some steps. -/
def displayRest : Path → Text
  | [] => [.char ']']
  | step :: path => .char ',' :: .char ' ' :: Json.quotedItems (step :: path) ++ [.char ']']

theorem quotedItems_cons (x : Json) (path : Path) :
    quotedItems (x :: path) ++ [.char ']'] = x.quoted ++ displayRest path := by
  cases path with
  | nil => rfl
  | cons =>
    simp only [quotedItems, displayRest, append_assoc]
    rfl

theorem head_displayRest (path : Path) : ∃ c s, displayRest path = c :: s ∧ isNumeric c = false := by
  cases path with
  | nil | cons => exact ⟨_, _, rfl, by decide⟩

theorem quotedItems_cons_ne {x : Json} {p : Path} (hp : Path.isProper (x :: p) = true) :
    quotedItems (x :: p) ++ [.char ']'] ≠ [.char ']'] := by
  obtain ⟨c, s, hhead, hc⟩ := head_quoted (all_eq_true.1 hp x mem_cons_self) (displayRest p)
  rw [quotedItems_cons, hhead]
  exact fun h => hc (cons.inj h).1

theorem quotedItems_inj : ∀ {p q : Path}, p.isProper = true → q.isProper = true →
    quotedItems p ++ [.char ']'] = quotedItems q ++ [.char ']'] → p = q
  | [], [], _, _, _ => rfl
  | [], _ :: _, _, hq, h => absurd h.symm (quotedItems_cons_ne hq)
  | _ :: _, [], hp, _, h => absurd h (quotedItems_cons_ne hp)
  | x :: p, y :: q, hp, hq, h => by
    simp only [isProper, all_cons, Bool.and_eq_true] at hp hq
    obtain ⟨c, s, hrest, hc⟩ := head_displayRest p
    obtain ⟨d, t, hrest', hd⟩ := head_displayRest q
    rw [quotedItems_cons, quotedItems_cons, hrest, hrest'] at h
    obtain ⟨rfl, htail⟩ := quoted_append_inj hp.1 hq.1 hc hd h
    rw [← hrest, ← hrest'] at htail
    match p, q, htail with
    | [], [], _ => rfl
    | [], _ :: _, htail => exact absurd (cons.inj htail).1 (by decide)
    | _ :: _, [], htail => exact absurd (cons.inj htail).1 (by decide)
    | _ :: _, _ :: _, htail =>
      have hitems := (cons.inj (cons.inj htail).2).2
      exact congrArg (x :: ·) (quotedItems_inj hp.2 hq.2 hitems)

theorem display_inj {p q : Path} (hp : p.isProper = true) (hq : q.isProper = true)
    (h : p.display = q.display) : p = q := by
  simp only [Path.display, quoted, append_assoc, append_cancel_left_eq] at h
  exact quotedItems_inj hp hq h

end Path

end ViewLint
