import ViewLint.Proofs.Fields
import ViewLint.Proofs.Labels
import ViewLint.Proofs.Matching
import ViewLint.Proofs.PropertyReferences
import ViewLint.Rule.Polling

/-!
# Calls in an expression that grows

A call of `now` is complete if nothing but blanks and digits stands between its brackets. Complete calls stay what
they are when text is added, so a verdict on them lasts; the verdict on an expression without any is lost as soon
as a complete call follows.

* `call?_of_isCall`, `exists_of_call?`: just the complete calls are read.
* `intervals_prefix`: added text adds intervals behind those that are there.
* **`refused_for_ever_iff`**: a refused expression is refused with every text behind it just if it has a complete
  call.
-/

namespace ViewLint.Polling

open List Text Fields

variable {s call digits : Text} {used : Nat} {minimum : Json}

/-! ## Complete calls -/

/-- A complete call with the digits of its interval. -/
def IsCall (digits call : Text) : Prop :=
  ∃ a b c : Text, (∀ x ∈ a ++ (b ++ c), isBlank x = true) ∧ (∀ x ∈ digits, isDigit x = true) ∧
    call = ofString "now" ++ (a ++ .char '(' :: (b ++ (digits ++ (c ++ [.char ')']))))

theorem exists_stripStart (s : Text) : ∃ a, (∀ x ∈ a, isBlank x = true) ∧ s = a ++ stripStart s :=
  ⟨s.takeWhile isBlank, all_eq_true.mp all_takeWhile, takeWhile_append_dropWhile.symm⟩

theorem call?_of_isCall (h : IsCall digits call) (rest : Text) : call? (call ++ rest) = some (digits, call.length) := by
  obtain ⟨a, b, c, hblank, hdigits, rfl⟩ := h
  simp only [forall_mem_append] at hblank
  obtain ⟨ha, hb, hc⟩ := hblank
  have hopen : isBlank (.char '(') = false := by decide
  have hclose : isBlank (.char ')') = false ∧ isDigit (.char ')') = false := by decide
  have hopened (y : Text) : opened? (ofString "now" ++ (a ++ .char '(' :: y)) = some y := by
    simp [opened?, after?_append, stripStart, dropWhile_append_of_pos ha, hopen]
  cases digits with
  | nil =>
    simp [call?, hopened, stripStart, dropWhile_append_of_pos hb, dropWhile_append_of_pos hc, hclose]
    omega
  | cons d ds =>
    have hd := BatchCounts.isBlank_of_isDigit (hdigits d mem_cons_self)
    have hstop : (c ++ .char ')' :: rest).takeWhile isDigit = [] ∧
        (c ++ .char ')' :: rest).dropWhile isDigit = c ++ .char ')' :: rest := by
      cases c with
      | nil => simp [hclose]
      | cons e c =>
        have he : isDigit e = false := Bool.eq_false_iff.mpr fun he => by
          simpa [BatchCounts.isBlank_of_isDigit he] using hc e mem_cons_self
        simp [he]
    have htake (y : Text) : takeWhile isDigit (d :: (ds ++ y)) = d :: ds ++ takeWhile isDigit y :=
      takeWhile_append_of_pos hdigits
    have hdrop (y : Text) : dropWhile isDigit (d :: (ds ++ y)) = dropWhile isDigit y := dropWhile_append_of_pos hdigits
    simp [call?, hopened, stripStart, dropWhile_append_of_pos hb, hd, htake, hdrop, hstop, dropWhile_append_of_pos hc,
      hclose]
    omega

theorem exists_of_opened? {r : Text} (h : opened? s = some r) :
    ∃ a, (∀ x ∈ a, isBlank x = true) ∧ s = ofString "now" ++ (a ++ .char '(' :: r) := by
  rw [opened?] at h
  obtain ⟨x, hx, h⟩ := Option.bind_eq_some_iff.mp h
  rw [after?, Option.ite_none_right_eq_some, Option.some.injEq] at hx
  obtain ⟨hnow, rfl⟩ := hx
  obtain ⟨y, rfl⟩ := isPrefixOf_iff_prefix.mp hnow
  rw [drop_left] at h
  obtain ⟨a, ha, hy⟩ := exists_stripStart y
  split at h
  · next r' heq =>
    cases h
    exact ⟨a, ha, by rw [← heq, ← hy]⟩
  · cases h

theorem exists_of_call? (h : call? s = some (digits, used)) :
    ∃ call rest, IsCall digits call ∧ s = call ++ rest := by
  rw [call?] at h
  obtain ⟨y, hy, h⟩ := Option.bind_eq_some_iff.mp h
  obtain ⟨a, ha, rfl⟩ := exists_of_opened? hy
  obtain ⟨b, hb, hinside⟩ := exists_stripStart y
  obtain ⟨c, hc, hrest⟩ := exists_stripStart ((stripStart y).dropWhile isDigit)
  simp only at h
  split at h
  · next r heq =>
    cases h
    refine ⟨_, r, ⟨a, b, c, ?_, all_eq_true.mp all_takeWhile, rfl⟩, ?_⟩
    · exact forall_mem_append.mpr ⟨ha, forall_mem_append.mpr ⟨hb, hc⟩⟩
    · have hy : y = b ++ ((stripStart y).takeWhile isDigit ++ (c ++ .char ')' :: r)) := by
        rw [← heq, ← hrest, takeWhile_append_dropWhile, ← hinside]
      simpa using hy
  · cases h

theorem IsCall.not_mem_tail (h : IsCall digits call) : .char 'n' ∉ call.tail := by
  obtain ⟨a, b, c, hblank, hdigits, rfl⟩ := h
  intro hmem
  have hblank := hblank (.char 'n')
  have hdigits := hdigits (.char 'n')
  have hn : isBlank (.char 'n') = false ∧ isDigit (.char 'n') = false := by decide
  simp [ofString, hn] at hmem hblank hdigits
  tauto

theorem intervals_eq_nil (h : .char 'n' ∉ s) : intervals s = [] := by
  refine eq_nil_iff_forall_not_mem.mpr fun digits hmem => ?_
  obtain ⟨t, used, ht, hcall⟩ := exists_of_mem_scan hmem
  obtain ⟨call, rest, ⟨a, b, c, -, -, rfl⟩, rfl⟩ := exists_of_call? hcall
  exact h (ht.subset (by simp [ofString]))

/-- A call that starts in a text and is complete only with what is added is all that follows there. -/
theorem call?_append_cases {t : Text} (h : call? (s ++ t) = some (digits, used)) :
    call? s = some (digits, used) ∨ ∃ a, a ≠ [] ∧ a <+: t ∧ IsCall digits (s ++ a) := by
  obtain ⟨call, rest, hcall, heq⟩ := exists_of_call? h
  rw [heq, call?_of_isCall hcall] at h
  cases h
  obtain ⟨a, rfl, rfl⟩ | ⟨c, rfl, -⟩ := append_eq_append_iff.mp heq
  · by_cases ha : a = []
    · exact .inl (by simpa [ha] using call?_of_isCall hcall [])
    · exact .inr ⟨a, ha, prefix_append a rest, hcall⟩
  · exact .inl (call?_of_isCall hcall c)

theorem call?_append {p : Text × Nat} (h : call? s = some p) (t : Text) : call? (s ++ t) = some p := by
  obtain ⟨call, rest, hcall, rfl⟩ := exists_of_call? h
  rw [call?_of_isCall hcall] at h
  rw [append_assoc, call?_of_isCall hcall, h]

/-! ## Added text -/

theorem scanFrom_prefix (skip : Nat) (s t : Text) : scanFrom call? skip s <+: scanFrom call? skip (s ++ t) := by
  induction s generalizing skip with
  | nil => exact nil_prefix
  | cons c r ih =>
    cases skip with
    | succ skip => exact ih skip
    | zero =>
      rw [cons_append, scanFrom, scanFrom, ← cons_append]
      cases h : call? (c :: r) with
      | some p => rw [call?_append h]; exact (prefix_cons_inj p.1).mpr (ih _)
      | none =>
        cases ht : call? (c :: r ++ t) with
        | none => exact ih 0
        | some p =>
          -- The call reaches into the added text, so there is no further one before that.
          obtain hnone | ⟨a, -, -, hcall⟩ := call?_append_cases ht
          · cases h.symm.trans hnone
          · have hr : intervals r = [] := intervals_eq_nil fun hn => hcall.not_mem_tail (mem_append_left a hn)
            exact (show scanFrom call? 0 r = [] from hr) ▸ nil_prefix

theorem intervals_prefix (s t : Text) : intervals s <+: intervals (s ++ t) := scanFrom_prefix 0 s t

/-- A text without a complete call leaves the calls behind it alone. -/
theorem intervals_append_now (h : intervals s = []) : intervals (s ++ ofString " now(0)") = [ofString "0"] := by
  induction s with
  | nil => decide
  | cons c r ih =>
    rw [intervals, scan, scanFrom] at h
    cases hcall : call? (c :: r) with
    | some p => rw [hcall] at h; cases h
    | none =>
      rw [hcall] at h
      rw [intervals, scan, cons_append, scanFrom, ← cons_append]
      cases hlater : call? (c :: r ++ ofString " now(0)") with
      | none => exact ih h
      | some p =>
        obtain hnone | ⟨a, hne, ha, hcall'⟩ := call?_append_cases hlater
        · cases hcall.symm.trans hnone
        · have hn : .char 'n' ∉ a := fun hn => hcall'.not_mem_tail (mem_append_right r hn)
          have hlast : (c :: r ++ a).getLast? = some (.char ')') := by
            obtain ⟨x, y, z, -, -, hend⟩ := hcall'
            simp [hend, getLast?_append, getLast?_cons]
          simp only [ofString] at ha
          obtain _ | ⟨d, _ | ⟨e, a⟩⟩ := a
          · exact absurd rfl hne
          · rw [getLast?_concat] at hlast
            simp_all [cons_prefix_cons]
          · simp_all [cons_prefix_cons]

theorem allLong_append {xs : List Text} (h : allLong minimum xs = .ok false) (ys : List Text) :
    allLong minimum (xs ++ ys) = .ok false := by
  induction xs with
  | nil => cases h
  | cons digits xs ih =>
    rw [cons_append]
    unfold allLong at h ⊢
    split
    · rfl
    · next hread =>
      rw [if_neg hread] at h
      split
      · next hzero => rw [if_pos hzero] at h; exact ih h
      · next hzero =>
        rw [if_neg hzero] at h
        obtain ⟨short, hshort, h⟩ := bind_eq_ok.mp h
        rw [hshort]
        cases short with
        | true => rfl
        | false => exact ih h

/-- **A refused expression is refused with every text behind it just if it has a complete call.** -/
theorem refused_for_ever_iff (h : isValidValue minimum (.str s) = .ok false) :
    (∀ t : Text, isValidValue minimum (.str (s ++ " " ++ t)) = .ok false) ↔ intervals s ≠ [] := by
  have hholds (u : Text) (hu : Text.holds u "now" = true) : isValidValue minimum (.str u) = isValid minimum u := by
    simp [isValidValue, Json.holds, hu, bind, Except.bind]
  have hnow : Text.holds s "now" = true := by
    by_contra hnow
    rw [isValidValue, Json.holds, Bool.eq_false_iff.mpr hnow] at h
    cases h
  have hlater (t : Text) : isValidValue minimum (.str (s ++ " " ++ t)) =
      isValid minimum (s ++ (ofString " " ++ t)) := by
    rw [append_assoc, hholds]
    exact holds_iff_isInfix.mpr ((holds_iff_isInfix.mp hnow).trans (prefix_append s _).isInfix)
  rw [hholds s hnow, isValid] at h
  constructor
  · intro hkept hnone
    have hzero := (hlater (ofString "now(0)")).symm.trans (hkept _)
    have htext : ofString " " ++ ofString "now(0)" = ofString " now(0)" := rfl
    rw [isValid, htext, intervals_append_now hnone] at hzero
    cases hzero
  · intro hsome t
    obtain ⟨more, hmore⟩ := intervals_prefix s (ofString " " ++ t)
    obtain ⟨digits, given, hgiven⟩ := exists_cons_of_ne_nil hsome
    rw [hgiven] at h hmore
    rw [hlater, isValid, ← hmore]
    exact allLong_append h more

/-- An interval of half a second is refused, whatever stands behind it. -/
theorem refused_for_ever_half_second : isValidValue (.int 10000) (.str "now(500) + 1") = .ok false ∧
    ∀ t : Text, isValidValue (.int 10000) (.str (ofString "now(500) + 1" ++ " " ++ t)) = .ok false := by
  have h : isValidValue (.int 10000) (.str "now(500) + 1") = .ok false := by decide +kernel
  exact ⟨h, (refused_for_ever_iff h).mpr (by decide)⟩

/-- A call with a computed interval is refused, but no longer with a complete one behind it. -/
theorem refusal_lost : isValidValue (.int 10000) (.str "now(x)") = .ok false ∧
    isValidValue (.int 10000) (.str (ofString "now(x)" ++ " " ++ ofString "now(20000)")) = .ok true :=
  ⟨by decide +kernel, by decide +kernel⟩

end ViewLint.Polling
