import ViewLint.Proofs.Fields
import ViewLint.Proofs.ScriptLines
import ViewLint.ScriptCheck.Basic

/-!
# Reports of the script checker

The script checker prints a report as a line of text, with the number of a line of the scripts that are
put together. Reading its output gives back the reports, each with its script and the line there.

* **`ScriptCheck.Report.parse?_print`**: a printed report is read back.
* **`ScriptCheck.reports_traced`**: every report is traced back to the line that it is about, in order.
-/

namespace ViewLint

open List Option Text

variable {owners : Owners} {keys : List Text} {s number column : Text} {c : CodePoint}

/-! ## Numbers and lines -/

/-- Digits that write a number are read as that number. -/
theorem digitsValue_natText (n : Nat) : digitsValue (natText n) = n := by
  have hfold : ∀ acc, ∀ ch ∈ Nat.toDigits 10 n,
      acc * 10 + (digitValue? (.char ch)).getD 0 = 10 * acc + (ch.toNat - '0'.toNat) := by
    intro acc ch hch
    rw [digitValue?_char (Nat.isDigit_of_mem_toDigits (by decide) (by decide) hch), Nat.mul_comm]
    rfl
  rw [digitsValue, natText, natDigits, foldl_map, foldl_ext _ _ 0 hfold]
  exact Nat.ofDigitChars_toDigits (by decide) (by decide)

theorem isLineBreak_of_isDigit (h : isDigit c = true) : isLineBreak c = false := by
  have hzeros : ∀ z ∈ digitZeros, z = 48 ∨ (133 < z ∧ (z + 9 < 8232 ∨ 8233 < z)) := by decide
  rw [isDigit, digitValue?, isSome_map, find?_isSome] at h
  obtain ⟨z, hz, hrange⟩ := h
  have hz := hzeros z hz
  simp only [Bool.and_eq_true, decide_eq_true_eq] at hrange
  simp only [isLineBreak, Bool.or_eq_false_iff, Bool.and_eq_false_iff, decide_eq_false_iff_not, beq_eq_false_iff_ne]
  omega

theorem Text.lines_cons (h : isLineBreak c = false) (r : Text) :
    lines (c :: r) = match lines r with
      | [] => [[c]]
      | line :: rest => (c :: line) :: rest := by
  have hcr : c ≠ .char '\r' := fun e => absurd (e ▸ h) (by decide)
  rw [lines.eq_def]
  split
  · cases ‹_ :: _ = []›
  · cases ‹_ :: _ = _›
    exact absurd rfl hcr
  · cases ‹_ :: _ = _›
    rw [h]
    rfl

theorem Text.lines_append {a : Text} (ha : ∀ c ∈ a, isLineBreak c = false) (r : Text) :
    lines (a ++ "\n" ++ r) = a :: lines r := by
  induction a with
  | nil => rfl
  | cons c a ih =>
    rw [cons_append, cons_append, lines_cons (ha c mem_cons_self), ih fun x hx => ha x (mem_cons_of_mem _ hx)]

namespace ScriptCheck

/-! ## Reading a message -/

/-- At least one digit, and nothing else. -/
def IsNumber (s : Text) : Prop := s ≠ [] ∧ ∀ c ∈ s, isDigit c = true

/-- A category and its number. -/
def IsCode (code : Text) : Prop :=
  ∃ category number, code = category :: number ∧ category ∈ categories.map (·.1) ∧ IsNumber number

/-- What stands between the file of a message and its text. -/
def location (line column code : Text) : Text := ":" ++ line ++ ":" ++ column ++ ": " ++ code ++ ": "

/-- Whether a text reads like a location. -/
def IsLocation (s : Text) : Prop :=
  ∃ line column code, IsNumber line ∧ IsNumber column ∧ IsCode code ∧ s = location line column code

theorem isNumber_natText (n : Nat) : IsNumber (natText n) :=
  ⟨natText_ne_nil n, fun _ h => isDigit_of_mem_natText h⟩

theorem expect?_eq_some_iff {start r : Text} : expect? start s = some r ↔ s = start ++ r := by
  rw [expect?]
  split
  · rename_i h
    obtain ⟨t, rfl⟩ := isPrefixOf_iff_prefix.mp h
    simp
  · rename_i h
    refine ⟨fun e => (by cases e), fun e => absurd ( isPrefixOf_iff_prefix.mpr ?_) h⟩
    exact e ▸ prefix_append start r

theorem expect?_colon (r : Text) : expect? ":" (.char ':' :: r) = some r := expect?_eq_some_iff.mpr rfl

theorem expect?_separator (r : Text) : expect? ": " (.char ':' :: .char ' ' :: r) = some r :=
  expect?_eq_some_iff.mpr rfl

/-- Digits are read up to something that is none. -/
theorem digits?_append (h : IsNumber number) (hc : isDigit c = false) (r : Text) :
    digits? (number ++ c :: r) = some (number, c :: r) := by
  have htake : (number ++ c :: r).takeWhile isDigit = number := takeWhile_append_cons r h.2 hc
  rw [digits?, htake, drop_left]
  simp [h.1]

theorem of_digits? {r : Text} (h : digits? s = some (number, r)) : IsNumber number ∧ s = number ++ r := by
  rw [digits?] at h
  split at h
  · cases h
  · rename_i hne
    cases h
    refine ⟨⟨by simpa using hne, fun c hc => mem_takeWhile_imp hc⟩, ?_⟩
    exact (takeWhile_append_drop isDigit s).symm

namespace Message

theorem of_here? {m : Message} (h : here? s = some m) :
    ∃ column, IsNumber m.line ∧ IsNumber column ∧ IsCode m.code ∧ m.text ≠ [] ∧
      s = location m.line column m.code ++ m.text := by
  simp only [here?, bind_eq_bind, bind_eq_some_iff] at h
  obtain ⟨s₁, h₁, ⟨line, s₂⟩, h₂, s₃, h₃, ⟨column, s₄⟩, h₄, s₅, h₅, h⟩ := h
  cases s₅ with
  | nil => cases h
  | cons category s₆ =>
    by_cases hcategory : (categories.any fun x => x.1 == category) = true
    · simp only [hcategory, Bool.not_true, Bool.false_eq_true, if_false, bind_eq_some_iff] at h
      obtain ⟨⟨number, s₇⟩, h₆, text, h₇, h⟩ := h
      split at h
      · cases h
      · rename_i htext
        cases h
        obtain ⟨hline, rfl⟩ := of_digits? h₂
        obtain ⟨hcolumn, rfl⟩ := of_digits? h₄
        obtain ⟨hnumber, rfl⟩ := of_digits? h₆
        rw [expect?_eq_some_iff] at h₁ h₃ h₅ h₇
        subst h₁ h₃ h₅ h₇
        have hmem : category ∈ categories.map (·.1) := by simpa [List.mem_map] using hcategory
        refine ⟨column, hline, hcolumn, ⟨category, number, rfl, hmem, hnumber⟩, by simpa using htext, ?_⟩
        simp [location]
    · simp [hcategory] at h

theorem here?_location {line code text : Text} (hline : IsNumber line) (hcolumn : IsNumber column)
    (hcode : IsCode code) (htext : text ≠ []) :
    here? (location line column code ++ text) = some ⟨line, code, text⟩ := by
  obtain ⟨category, number, rfl, hcategory, hnumber⟩ := hcode
  have hcolon : isDigit (.char ':') = false := by decide
  have hany : (categories.any fun x => x.1 == category) = true := by simpa [List.mem_map] using hcategory
  have hsplit : location line column (category :: number) ++ text =
      .char ':' :: (line ++ .char ':' :: (column ++ .char ':' :: .char ' ' :: category ::
        (number ++ .char ':' :: .char ' ' :: text))) := by
    simp [location, ofString]
  rw [hsplit]
  simp only [here?, bind_eq_bind, expect?_colon, expect?_separator, digits?_append hline hcolon,
    digits?_append hcolumn hcolon, digits?_append hnumber hcolon, bind_some, hany, Bool.not_true,
    Bool.false_eq_true, if_false]
  simp [htext]

/-- No message starts at the colon behind the line of another. -/
theorem here?_column (hcolumn : IsNumber column) (r : Text) :
    here? (.char ':' :: (column ++ .char ':' :: .char ' ' :: r)) = none := by
  have hcolon : isDigit (.char ':') = false := by decide
  simp only [here?, bind_eq_bind, expect?_colon, digits?_append hcolumn hcolon, bind_some]
  rfl

theorem here?_cons (hc : c ≠ .char ':') (r : Text) : here? (c :: r) = none := by
  cases h : here? (c :: r) with
  | none => rfl
  | some m =>
    obtain ⟨column, -, -, -, -, hs⟩ := of_here? h
    exact absurd (cons.inj hs).1 hc

/-! ## The last message in a line -/

theorem last?_append {m : Message} (h : last? s = some m) (front : Text) : last? (front ++ s) = some m := by
  induction front with
  | nil => exact h
  | cons c front ih => rw [cons_append, last?, ih]

theorem last?_cons_eq_none (hhere : here? (c :: s) = none) (hs : last? s = none) : last? (c :: s) = none := by
  rw [last?, hs, hhere]

theorem last?_append_eq_none {front : Text} (hfront : .char ':' ∉ front) (hs : last? s = none) :
    last? (front ++ s) = none := by
  induction front with
  | nil => exact hs
  | cons c front ih =>
    obtain ⟨hc, hfront⟩ := not_or.mp (mt mem_cons.mpr hfront)
    exact last?_cons_eq_none (here?_cons (Ne.symm hc) _) (ih hfront)

/-- A text in which no location stands holds no message. -/
theorem last?_eq_none (h : ∀ l, IsLocation l → ¬ l <:+: s) : last? s = none := by
  induction s with
  | nil => rfl
  | cons c r ih =>
    refine last?_cons_eq_none ?_ (ih fun l hl hr => h l hl (infix_cons hr))
    cases hhere : here? (c :: r) with
    | none => rfl
    | some m =>
      obtain ⟨column, hline, hcolumn, hcode, -, hs⟩ := of_here? hhere
      exact absurd ⟨[], m.text, hs.symm⟩ (h _ ⟨_, _, _, hline, hcolumn, hcode, rfl⟩)

end Message

/-! ## Reports -/

/-- A report: about a column of a line of a file, a code of a category, and a text. -/
structure Report where
  file : Text
  line : Nat
  column : Nat
  category : CodePoint
  number : Text
  text : Text
  one_line : ∀ c ∈ file ++ text, isLineBreak c = false
  category_mem : category ∈ categories.map (·.1)
  isNumber : IsNumber number
  text_ne_nil : text ≠ []
  /-- The text itself does not read like a report. -/
  plain : ∀ l, IsLocation l → ¬ l <:+: text

namespace Report

variable (m : Report)

def code : Text := m.category :: m.number

/-- A report as a line of output. -/
def print : Text := m.file ++ location (natText m.line) (natText m.column) m.code ++ m.text

def output (reports : List Report) : Text := reports.flatMap fun m => m.print ++ "\n"

theorem isCode : IsCode m.code := ⟨m.category, m.number, rfl, m.category_mem, m.isNumber⟩

theorem colon_not_mem (h : ∀ c ∈ s, isDigit c = true) : .char ':' ∉ s :=
  fun hs => absurd (h _ hs) (by decide)

theorem colon_not_mem_code : .char ':' ∉ m.code := by
  have hcategories : ∀ category ∈ categories.map (·.1), category ≠ .char ':' := by decide
  rw [code, mem_cons, not_or]
  exact ⟨(hcategories _ m.category_mem).symm, colon_not_mem m.isNumber.2⟩

theorem parse?_print : Message.parse? m.print = some ⟨natText m.line, m.code, m.text⟩ := by
  have hhere := Message.here?_location (isNumber_natText m.line) (isNumber_natText m.column) m.isCode m.text_ne_nil
  have hsplit : location (natText m.line) (natText m.column) m.code ++ m.text =
      .char ':' :: (natText m.line ++ .char ':' :: (natText m.column ++ .char ':' :: .char ' ' ::
        (m.code ++ .char ':' :: .char ' ' :: m.text))) := by
    simp [location, ofString]
  have hlater : Message.last? (natText m.line ++ .char ':' :: (natText m.column ++ .char ':' :: .char ' ' ::
      (m.code ++ .char ':' :: .char ' ' :: m.text))) = none := by
    have hblank : .char ':' ∉ [CodePoint.char ' '] := by decide
    have htext := Message.last?_eq_none m.plain
    have hcode := Message.last?_append_eq_none m.colon_not_mem_code
      (Message.last?_cons_eq_none (c := .char ':') rfl (Message.last?_append_eq_none hblank htext))
    have hcolumn := Message.last?_append_eq_none (colon_not_mem (isNumber_natText m.column).2)
      (Message.last?_cons_eq_none (c := .char ':') rfl (Message.last?_append_eq_none hblank hcode))
    refine Message.last?_append_eq_none (colon_not_mem (isNumber_natText m.line).2) ?_
    exact Message.last?_cons_eq_none (Message.here?_column (isNumber_natText m.column) _) hcolumn
  rw [Message.parse?, print, append_assoc]
  refine Message.last?_append ?_ m.file
  rw [hsplit] at hhere ⊢
  rw [Message.last?, hlater, hhere]

theorem print_one_line : ∀ c ∈ m.print, isLineBreak c = false := by
  have hcategories : ∀ category ∈ categories.map (·.1), isLineBreak category = false := by decide
  have hnumber {s : Text} (h : IsNumber s) : ∀ c ∈ s, isLineBreak c = false :=
    fun c hc => isLineBreak_of_isDigit (h.2 c hc)
  have hcode : ∀ c ∈ m.code, isLineBreak c = false :=
    forall_mem_cons.mpr ⟨hcategories _ m.category_mem, hnumber m.isNumber⟩
  have hcolon : ∀ c ∈ (":" : Text), isLineBreak c = false := by decide
  have hseparator : ∀ c ∈ (": " : Text), isLineBreak c = false := by decide
  have hfile := fun c hc => m.one_line c (mem_append_left _ hc)
  have htext := fun c hc => m.one_line c (mem_append_right _ hc)
  simp only [print, location, forall_mem_append]
  exact ⟨⟨hfile, ⟨⟨⟨⟨⟨hcolon, hnumber (isNumber_natText _)⟩, hcolon⟩, hnumber (isNumber_natText _)⟩, hseparator⟩,
    hcode⟩, hseparator⟩, htext⟩

theorem lines_output (reports : List Report) : lines (output reports) = reports.map print := by
  induction reports with
  | nil => rfl
  | cons m reports ih =>
    rw [output, flatMap_cons, lines_append m.print_one_line, map_cons, ← ih]
    rfl

theorem readLine_print {key : Text}
    (hdigits : (natText m.line).length ≤ Json.digitLimit) (howner : owners.ownerOf? m.line = some key)
    (hkey : key ≠ []) (hmem : key ∈ keys) :
    readLine owners keys m.print =
      .violation ⟨m.category, m.code, m.text, key, m.line - (owners.startOf? key).getD 0 + 1⟩ := by
  have hknown : (key.isEmpty || !keys.contains key) = false := by simp [hkey, hmem]
  rw [readLine, parse?_print]
  simp only [if_neg (Nat.not_lt.mpr hdigits), digitsValue_natText, howner, hknown]
  rfl

end Report

/-! ## Tracing reports -/

/-- A script with its key. -/
structure Source where
  key : Text
  role : ScriptRole
  text : Text
  key_ne_nil : key ≠ []
  one_line_key : .char '\n' ∉ key
  one_line_header : .char '\n' ∉ role.header

namespace Source

def script (s : Source) : Text × Script := (s.key, ⟨.str s.text, s.role⟩)

def function (s : Source) : Text := Script.formattedText s.role s.text

def functions (sources : List Source) : List (Text × Text) := sources.map fun s => (s.key, s.function)

theorem combine_script (sources : List Source) : combine (sources.map script) =
      .ok (join "\n" (drafted (functions sources)).pieces, (drafted (functions sources)).owners) := by
  have hfunctions : (sources.map script).mapM (fun (p : Text × Script) => do return (p.1, ← p.2.formatted)) =
      (.ok (functions sources) : Except Fault (List (Text × Text))) := by
    rw [mapM_map]
    exact mapM_pure
  rw [combine]
  exact congrArg (fun fs : Except Fault _ => fs >>= _) hfunctions

end Source

/-- A violation for a report: it has its code and text, the key of the script that its line comes from, and
the line of the function there, which below the header is a line of the script. -/
structure Report.TracedTo (sources : List Source) (text : Text) (m : Report) (v : Violation) : Prop where
  code_eq : v.code = m.code
  category_eq : v.category = m.category
  message_eq : v.message = m.text
  owner : ∃ s ∈ sources, s.key = v.key ∧ ∃ r : Nat, v.line = r ∧
    origin? (Source.functions sources) m.line = some ⟨v.key, r⟩ ∧
    ∃ row, row? text m.line = some row ∧ row? s.function r = some row ∧ (2 ≤ r → isBlankText s.text = false →
        ∃ original, row? s.text (r - 1) = some original ∧ strip row = strip original)

theorem forM_eq_pure {α : Type} {f : α → Session Unit} {xs : List α} (h : ∀ x ∈ xs, f x = pure ()) :
    xs.forM f = pure () := by
  induction xs with
  | nil => rfl
  | cons x xs ih =>
    have hrest : xs.forM f = pure () := ih fun y hy => h y (mem_cons_of_mem x hy)
    calc (x :: xs).forM f = f x >>= fun _ => xs.forM f := rfl
      _ = pure () := by rw [h x mem_cons_self, hrest]; rfl

/-- The violation that a line of output means. -/
def Reading.violation? : Reading → Option Violation
  | .violation v => some v
  | _ => none

/-- Reading an output has no effect but its result, unless the number of a line is too long. -/
theorem readOutput_eq_pure (c : Config) {output : Text}
    (h : ∀ r ∈ trace owners keys output, ∀ digits, r.2 ≠ .unreadable digits) :
    c.readOutput owners keys output = pure ((trace owners keys output).filterMap fun r => r.2.violation?) := by
  rw [Config.readOutput]
  split
  · refine (congrArg (· >>= fun _ => pure _) (forM_eq_pure fun r hr => ?_)).trans (pure_bind () _)
    obtain ⟨line, reading⟩ := r
    cases reading with
    | unreadable digits => exact absurd rfl (h _ hr digits)
    | nothing | violation => rfl
  · rfl

theorem Report.exists_tracedTo {sources : List Source} (hdistinct : (sources.map Source.key).Nodup) {m : Report}
    (hdigits : (natText m.line).length ≤ Json.digitLimit)
    (hline : (origin? (Source.functions sources) m.line).isSome) :
    ∃ v, readLine (drafted (Source.functions sources)).owners (sources.map Source.key) m.print = .violation v ∧
      TracedTo sources (join "\n" (drafted (Source.functions sources)).pieces) m v := by
  obtain ⟨o, horigin⟩ := isSome_iff_exists.mp hline
  obtain ⟨i, hi, ho⟩ := origin?_eq_some_iff.mp horigin
  have hkeys : (Source.functions sources).map (·.1) = sources.map Source.key := by
    rw [Source.functions, List.map_map]
    rfl
  have hbreaks : ∀ f ∈ Source.functions sources, .char '\n' ∉ f.1 := by
    intro f hf
    obtain ⟨s, -, rfl⟩ := mem_map.mp hf
    exact s.one_line_key
  obtain ⟨f, hf, hkey, row, hrow, hfunction⟩ := row_of_origin hbreaks ho
  obtain ⟨s, hs, rfl⟩ := mem_map.mp hf
  obtain ⟨first, below, hfirst, hbelow, hbelowline⟩ := exists_first ho
  have howner := ownerOf?_of_origin ho
  have hstart := startOf?_of_origin (hkeys ▸ hdistinct) hfirst
  have hmem : o.key ∈ sources.map Source.key := hkey ▸ mem_map_of_mem hs
  rw [← hi] at howner
  refine ⟨_, m.readLine_print hdigits howner (hkey ▸ s.key_ne_nil) hmem, rfl, rfl, rfl, s, hs, hkey, o.line, ?_,
    horigin, row, ?_, hfunction, ?_⟩
  · rw [hstart]
    simp only [getD_some]
    omega
  · rw [hi, row?, rows_pieces, hrow]
  · intro hr hblank
    obtain ⟨n, hn⟩ := Nat.exists_eq_add_of_le' hr
    have hstrip := Script.strip_row_formattedText s.one_line_header hblank n
    rw [hn] at hfunction
    rw [show row? (Script.formattedText s.role s.text) (n + 2) = some row from hfunction] at hstrip
    obtain ⟨original, horiginal, hequal⟩ := map_eq_some_iff.mp hstrip.symm
    exact ⟨original, by rw [hn]; exact horiginal, hequal.symm⟩

/-- **Every report is traced back to the line of the script that it is about**, one violation for each, in
order. -/
theorem reports_traced (c : Config) {sources : List Source} (hdistinct : (sources.map Source.key).Nodup)
    {reports : List Report} (hdigits : ∀ m ∈ reports, (natText m.line).length ≤ Json.digitLimit)
    (hlines : ∀ m ∈ reports, (origin? (Source.functions sources) m.line).isSome) :
    ∃ text owners violations, combine (sources.map Source.script) = .ok (text, owners) ∧
      c.readOutput owners (sources.map Source.key) (Report.output reports) = pure violations ∧
      List.Forall₂ (Report.TracedTo sources text) reports violations := by
  obtain ⟨violations, h⟩ := exists_forall₂ fun m hm =>
    Report.exists_tracedTo hdistinct (hdigits m hm) (hlines m hm)
  refine ⟨_, _, violations, Source.combine_script sources, ?_, List.Forall₂.imp (fun _ _ hv => hv.2) h⟩
  have htrace : (trace (drafted (Source.functions sources)).owners (sources.map Source.key)
      (Report.output reports)).map (·.2) = violations.map .violation := by
    rw [trace, Report.lines_output, List.map_map, List.map_map, ← List.forall₂_eq_eq_eq,
      forall₂_map_left_iff, forall₂_map_right_iff]
    exact List.Forall₂.imp (fun _ _ hv => hv.1) h
  have hreadable : ∀ r ∈ trace (drafted (Source.functions sources)).owners (sources.map Source.key)
      (Report.output reports), ∀ digits, r.2 ≠ .unreadable digits := by
    intro r hr digits hdigits
    have hmem := htrace ▸ mem_map.mpr ⟨r, hr, hdigits⟩
    obtain ⟨v, -, hv⟩ := mem_map.mp hmem
    cases hv
  rw [readOutput_eq_pure c hreadable]
  refine congrArg pure ?_
  calc _ = (violations.map Reading.violation).filterMap Reading.violation? := by
        rw [← htrace, filterMap_map]
        rfl
    _ = violations := by
        rw [filterMap_map]
        exact filterMap_some

def twoScripts : List Source :=
  [⟨"view.json::root", .transform .null, "x = 1\nreturn y", by decide, by decide, by decide⟩,
    ⟨"loose", .eventHandler .null "onClick" .null, "\tprint(z)", by decide, by decide, by decide⟩]

/-- A report about a name that nothing defines. -/
def undefinedName (line : Nat) (name : CodePoint) (hname : name ∈ ("xyz" : Text)) : Report where
  file := "/tmp/draft.py"
  line := line
  column := 4
  category := .char 'E'
  number := "0602"
  text := "Undefined variable '" ++ [name] ++ "'"
  one_line := by
    have h : ∀ name ∈ ("xyz" : Text), ∀ c ∈ ("/tmp/draft.py" ++ ("Undefined variable '" ++ [name] ++ "'") : Text),
        isLineBreak c = false := by decide
    exact h name hname
  category_mem := by decide
  isNumber := by exact ⟨by decide, by decide⟩
  text_ne_nil := by simp
  plain := by
    have h : ∀ name ∈ ("xyz" : Text), .char ':' ∉ ("Undefined variable '" ++ [name] ++ "'" : Text) := by decide
    rintro l ⟨line, column, code, -, -, -, rfl⟩ hoccurs
    exact h name hname (hoccurs.subset (by simp [location, ofString]))

/-- Three reports, one of them about a header and the last one about the first script again. -/
def threeReports : List Report :=
  [undefinedName 16 (.char 'z') (by decide), undefinedName 10 (.char 'x') (by decide),
    undefinedName 12 (.char 'y') (by decide)]

theorem reports_traced_threeReports : (twoScripts.map Source.key).Nodup ∧
      (∀ m ∈ threeReports, (natText m.line).length ≤ Json.digitLimit ∧
        (origin? (Source.functions twoScripts) m.line).isSome) ∧
      ∀ c : Config, ∃ text owners violations, combine (twoScripts.map Source.script) = .ok (text, owners) ∧
        c.readOutput owners (twoScripts.map Source.key) (Report.output threeReports) = pure violations ∧
        List.Forall₂ (Report.TracedTo twoScripts text) threeReports violations := by
  have hdistinct : (twoScripts.map Source.key).Nodup := by decide
  have hdigits : ∀ m ∈ threeReports, (natText m.line).length ≤ Json.digitLimit := by decide +kernel
  have hlines : ∀ m ∈ threeReports, (origin? (Source.functions twoScripts) m.line).isSome := by decide +kernel
  exact ⟨hdistinct, fun m hm => ⟨hdigits m hm, hlines m hm⟩, fun c => reports_traced c hdistinct hdigits hlines⟩

/-- A report about a script without a key is dropped. -/
theorem readOutput_empty_key : ∃ text owners, combine [([], ⟨.str "x", .transform .null⟩)] = .ok (text, owners) ∧
      origin? [([], Script.formattedText (.transform .null) "x")] 10 = some ⟨[], 2⟩ ∧
      ∀ c : Config, c.readOutput owners [[]] (Report.output [undefinedName 10 (.char 'x') (by decide)]) = pure [] := by
  let fs : List (Text × Text) := [([], Script.formattedText (.transform .null) "x")]
  let m : Report := undefinedName 10 (.char 'x') (by decide)
  have horigin : origin? fs 10 = some ⟨[], 2⟩ := rfl
  have howner : (drafted fs).owners.ownerOf? m.line = some [] := rfl
  have hnothing : readLine (drafted fs).owners [[]] m.print = .nothing := by
    have hdigits : ¬ Json.digitLimit < (natText m.line).length := by decide +kernel
    rw [readLine, Report.parse?_print]
    simp only [if_neg hdigits, digitsValue_natText, howner]
    rfl
  have htrace : trace (drafted fs).owners [[]] (Report.output [m]) = [(m.print, .nothing)] := by
    rw [trace, Report.lines_output, map_singleton, map_singleton, hnothing]
  refine ⟨join "\n" (drafted fs).pieces, (drafted fs).owners, rfl, horigin, fun c => ?_⟩
  rw [readOutput_eq_pure c (by rw [htrace]; simp), htrace]
  rfl

end ScriptCheck

end ViewLint
