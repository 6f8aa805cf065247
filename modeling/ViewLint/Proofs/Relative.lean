import Mathlib.Data.List.TakeWhile
import ViewLint.Proofs.Matching
import ViewLint.Rule.ComponentReference
import ViewLint.View.Reference

/-!
# Relative references in a text

The search for strings that mention a component and the rule that follows references read the same
references: dots, a slash and steps, between braces or as a whole text.

* **`Reference.findAll_expressionPattern`**: the search finds the steps of the references between braces,
  whether these are single or doubled.
-/

namespace ViewLint

open List Text CodePoint ComponentTree

variable {n used : Nat} {x : CodePoint} {s r inner a line : Text}

/-! ## Characters up to a place -/

namespace Text

variable {c stop : CodePoint} {p : CodePoint → Bool}

theorem takeWhile_append_drop (p : CodePoint → Bool) (s : Text) :
    s.takeWhile p ++ s.drop (s.takeWhile p).length = s :=
  prefix_iff_eq_append.mp ( takeWhile_prefix p)

theorem takeWhile_append_cons (t : Text)
    (hs : ∀ x ∈ s, p x = true) (hc : p c = false) : (s ++ c :: t).takeWhile p = s := by
  rw [takeWhile_append_of_pos hs, takeWhile_cons, if_neg (by simp [hc]), append_nil]

theorem takeWhile_ne (t : Text) (h : stop ∉ s) : (s ++ stop :: t).takeWhile (· != stop) = s :=
  takeWhile_append_cons t (fun _ hx => bne_iff_ne.mpr fun e => h (e ▸ hx)) (by simp)

theorem not_mem_takeWhile_ne : stop ∉ s.takeWhile (· != stop) := fun h => by simpa using mem_takeWhile_imp h

/-- What stops the characters up to a place. -/
theorem head_drop_takeWhile (s : Text) (h : s.drop (s.takeWhile p).length = c :: r) : p c = false := by
  induction s with
  | nil => simp at h
  | cons x s ih =>
    rw [takeWhile_cons] at h
    split at h
    · exact ih h
    · next hx =>
      cases h
      simpa using hx

theorem enclosed?_nil_eq_some_iff : enclosed? [] stop s = some (inner, used) ↔
      ∃ after, s = inner ++ stop :: after ∧ inner ≠ [] ∧ stop ∉ inner ∧ used = inner.length + 1 := by
  constructor
  · intro h
    have hs := takeWhile_append_drop (· != stop) s
    simp only [enclosed?, after?, isPrefixOf_nil_left, if_true, length_nil, drop_zero,
      Option.bind_eq_bind, Option.bind_some] at h
    split at h
    · cases h
    · next hinner =>
      simp only [Option.pure_def, Option.some.injEq, Prod.mk.injEq] at h
      obtain ⟨rfl, rfl⟩ := h
      obtain ⟨hne, hlen⟩ : s.takeWhile (· != stop) ≠ [] ∧ (s.takeWhile (· != stop)).length ≠ s.length := by
        simpa using hinner
      cases hrest : s.drop (s.takeWhile (· != stop)).length with
      | nil =>
        rw [hrest, append_nil] at hs
        exact absurd (congrArg length hs) hlen
      | cons c r =>
        obtain rfl : c = stop := by simpa using head_drop_takeWhile s hrest
        rw [hrest] at hs
        exact ⟨r, hs.symm, hne, not_mem_takeWhile_ne, by omega⟩
  · rintro ⟨after, rfl, hne, hstop, rfl⟩
    have htake := takeWhile_ne after hstop
    have hlen : ¬ (inner.isEmpty || inner.length == (inner ++ stop :: after).length) = true := by
      simp [hne]
    simp only [enclosed?, after?, isPrefixOf_nil_left, if_true, length_nil, drop_zero,
      Option.bind_eq_bind, Option.bind_some, htake, if_neg hlen, Nat.zero_add, Option.pure_def]

/-! ## Pieces between separators -/

theorem splitWhere_ne_nil (p : CodePoint → Bool) (s : Text) : splitWhere p s ≠ [] := by
  induction s with
  | nil => simp [splitWhere]
  | cons c r ih =>
    rw [splitWhere]
    split
    · simp
    · cases h : splitWhere p r <;> simp [consHead]

theorem splitWhere_of_forall (ha : ∀ x ∈ a, p x = false) : splitWhere p a = [a] := by
  induction a with
  | nil => rfl
  | cons c a ih =>
    rw [splitWhere, if_neg (by simp [ha c mem_cons_self]), ih fun x hx => ha x (mem_cons_of_mem _ hx)]
    rfl

/-- The pieces on both sides of a stop. -/
theorem splitWhere_append_stop (a r : Text) (hc : p c = true) :
    splitWhere p (a ++ c :: r) = splitWhere p a ++ splitWhere p r := by
  induction a with
  | nil => exact if_pos hc
  | cons d a ih =>
    rw [cons_append, splitWhere, splitWhere, ih]
    split
    · rfl
    · cases h : splitWhere p a with
      | nil => exact absurd h (splitWhere_ne_nil p a)
      | cons piece rest => rfl

theorem splitWhere_append_cons (r : Text) (ha : ∀ x ∈ a, p x = false)
    (hc : p c = true) : splitWhere p (a ++ c :: r) = a :: splitWhere p r := by
  rw [splitWhere_append_stop a r hc, splitWhere_of_forall ha]
  rfl

/-- A piece holds characters of the text, and none that parts it. -/
theorem mem_of_mem_splitWhere {piece : Text} (h : piece ∈ splitWhere p s) (hx : x ∈ piece) : x ∈ s ∧ p x = false := by
  induction s generalizing piece with
  | nil =>
    rw [splitWhere, mem_singleton] at h
    subst h
    cases hx
  | cons c r ih =>
    rw [splitWhere] at h
    split at h
    · rcases mem_cons.mp h with rfl | h
      · cases hx
      · exact (ih h hx).imp_left (mem_cons_of_mem _)
    · next hc =>
      obtain ⟨first, rest, hsplit⟩ := exists_cons_of_ne_nil (splitWhere_ne_nil p r)
      rw [hsplit] at h ih
      rcases mem_cons.mp h with rfl | h
      · rcases mem_cons.mp hx with rfl | hx
        · exact ⟨mem_cons_self, by simpa using hc⟩
        · exact (ih mem_cons_self hx).imp_left (mem_cons_of_mem _)
      · exact (ih (mem_cons_of_mem _ h) hx).imp_left (mem_cons_of_mem _)

end Text

/-! ## The front of a reference -/

/-- The dots and the slash at the front of a relative reference. -/
def dotsText (count : Nat) : Text := List.replicate count (.char '.') ++ [.char '/']

@[simp] theorem length_dotsText (count : Nat) : (dotsText count).length = count + 1 := by simp [dotsText]

theorem dotsText_succ (count : Nat) : dotsText (count + 1) = .char '.' :: dotsText count := rfl

theorem ComponentTree.dots?_eq_some_iff {rest : Text} :
    dots? s = some (n, rest) ↔ 2 ≤ n ∧ s = dotsText n ++ rest := by
  constructor
  · intro h
    have hdots : s.takeWhile (· == .char '.') = replicate (s.takeWhile (· == .char '.')).length (.char '.') :=
      eq_replicate_of_mem fun x hx => by simpa using mem_takeWhile_imp hx
    have hs := takeWhile_append_drop (· == .char '.') s
    rw [dots?] at h
    split at h
    · next r hr =>
      split at h
      · next hn =>
        cases h
        refine ⟨hn, ?_⟩
        rw [dotsText, append_assoc, ← hdots, singleton_append, ← hr, hs]
      · cases h
    · cases h
  · rintro ⟨hn, rfl⟩
    rw [dotsText, append_assoc, singleton_append]
    have htake : (replicate n (char '.') ++ char '/' :: rest).takeWhile (· == .char '.') = replicate n (.char '.') :=
      takeWhile_append_cons rest (fun x hx => by simp [eq_of_mem_replicate hx]) (by decide)
    have hdrop : (replicate n (char '.') ++ char '/' :: rest).drop n = .char '/' :: rest := drop_left' (by simp)
    simp only [dots?, htake, length_replicate, hdrop, if_pos hn]

theorem ComponentTree.head_of_dots? {d : Nat × Text} (h : dots? (x :: r) = some d) : x = .char '.' := by
  obtain ⟨n, rest⟩ := d
  obtain ⟨hn, heq⟩ := dots?_eq_some_iff.mp h
  obtain ⟨m, rfl⟩ := Nat.exists_eq_add_of_le hn
  rw [Nat.add_comm, dotsText_succ] at heq
  exact (cons.inj heq).1

/-! ## References between braces -/

namespace Reference

/-- The dots and the steps of a relative reference between braces at the front of a text, with the number
of its characters. -/
def braced? (s : Text) : Option ((Nat × Text) × Nat) := do
  let (count, rest) ← ComponentTree.dots? (← after? ['\x7b'] s)
  let (inner, used) ← enclosed? [] '\x7d' rest
  return ((count, inner), count + 2 + used)

theorem braced?_eq_some_iff {count : Nat} : braced? s = some ((count, inner), used) ↔
      2 ≤ count ∧ inner ≠ [] ∧ .char '\x7d' ∉ inner ∧ used = count + 3 + inner.length ∧
        ∃ after, s = .char '\x7b' :: (dotsText count ++ (inner ++ .char '\x7d' :: after)) := by
  simp only [braced?, Option.bind_eq_bind, Option.bind_eq_some_iff, Prod.exists, Option.pure_def,
    Option.some.injEq, Prod.mk.injEq, dots?_eq_some_iff, enclosed?_nil_eq_some_iff]
  constructor
  · rintro ⟨r, hr, n, rest, ⟨hn, rfl⟩, i, u, ⟨after, rfl, hne, hstop, rfl⟩, ⟨rfl, rfl⟩, rfl⟩
    refine ⟨hn, hne, hstop, by omega, after, ?_⟩
    rw [after?] at hr
    split at hr
    · next hp =>
      obtain ⟨t, rfl⟩ := isPrefixOf_iff_prefix.mp hp
      cases hr
      rfl
    · cases hr
  · rintro ⟨hn, hne, hstop, rfl, after, rfl⟩
    refine ⟨_, ?_, count, inner ++ .char '\x7d' :: after, ⟨hn, rfl⟩, inner, _, ⟨after, rfl, hne, hstop, rfl⟩,
      ⟨rfl, rfl⟩, by omega⟩
    simp [after?]

/-! ## The search by patterns -/

section Patterns

open Pattern

variable {size : Nat} {next : Next}

def dotsPattern : Pattern := .group 1 (.seq (.lit [.char '.']) (.seq (.many1 (.char '.')) .empty))

/-- The pattern of one or two closing braces. -/
def closingPattern : Pattern := .seq (.rep true 1 (some 2) (.lit [.char '\x7d'])) .empty

/-- The pattern of the steps between braces, and of the closing braces. -/
def innerPattern : Pattern := .seq (.group 2 (.many1 (.except (.char '\x7d')))) closingPattern

theorem expressionPattern_eq : expressionPattern = .seq (.rep true 1 (some 2) (.lit [.char '\x7b']))
      (.seq dotsPattern (.seq (.lit [.char '/']) innerPattern)) := rfl

/-- A reference is matched from its dots to its slash, and then by what stands behind it. -/
theorem run_dots (p : Pattern) (c : Cursor) (hsize : c.pos + c.rest.length ≤ size) :
    run size (.seq dotsPattern (.seq (.lit [.char '/']) p)) c next = (ComponentTree.dots? c.rest).bind fun d =>
        run size p ⟨c.pos + d.1 + 1, d.2, (1, c.pos, c.pos + d.1) :: c.groups⟩ next := by
  obtain ⟨pos, rest, groups⟩ := c
  simp only [dotsPattern, run_seq, run_group, run_char, run_empty]
  cases rest with
  | nil => rfl
  | cons x r =>
    have htake : ∀ s : Text, s.takeWhile (CharSet.char '.').has = s.takeWhile (· == .char '.') := fun _ => rfl
    by_cases hx : x = .char '.'
    · subst hx
      simp only [length_cons] at hsize
      rw [if_pos head?_cons, run_many1 _ _ (by simp only [Cursor.advance, drop_succ_cons, drop_zero]; omega)]
      · simp only [Cursor.advance, drop_succ_cons, drop_zero, htake, ComponentTree.dots?,
          takeWhile_cons, beq_self_eq_true, if_true, length_cons]
        cases hdots : r.takeWhile (· == CodePoint.char '.') with
        | nil =>
          rw [if_pos rfl]
          split <;> rfl
        | cons y ys =>
          rw [if_neg (by simp)]
          cases hslash : r.drop (y :: ys).length with
          | nil => simp
          | cons z t =>
            by_cases hz : z = .char '/'
            · subst hz
              simp [Nat.add_assoc, Nat.add_comm 1]
            · simp [hz]
      · -- the slash stands where the dots end
        intro d y t hd hy
        obtain rfl : y = .char '.' := by simpa [CharSet.has] using hy
        simp [hd]
    · rw [if_neg (by simpa using hx)]
      cases hdots : ComponentTree.dots? (x :: r) with
      | none => rfl
      | some d => exact absurd (ComponentTree.head_of_dots? hdots) hx

/-- The number of characters of a reference with the second closing brace that may follow it. -/
def closing (s : Text) (used : Nat) : Nat :=
  if (s.drop used).head? = some (.char '\x7d') then used + 1 else used

theorem run_closing (c : Cursor) : run size closingPattern c some =
      if c.rest.head? = some (.char '\x7d') then some (c.advance (closing c.rest 1)) else none := by
  simp only [closingPattern, run_seq, run_empty, run_once_or_twice, closing]
  split
  · split <;> rfl
  · rfl

theorem run_inner (c : Cursor) (hsize : c.pos + c.rest.length ≤ size) : run size innerPattern c some =
      (enclosed? [] '\x7d' c.rest).map fun p =>
        ({ c with groups := (2, c.pos, c.pos + p.1.length) :: c.groups } : Cursor).advance (closing c.rest p.2) := by
  obtain ⟨pos, rest, groups⟩ := c
  have hhas : (CharSet.except (.char '\x7d')).has = (· != CodePoint.char '\x7d') := rfl
  simp only [innerPattern, run_seq, run_group, run_closing]
  rw [run_many1 _ _ hsize]
  · simp only [hhas, Cursor.advance]
    cases hin : enclosed? [] (.char '\x7d') rest with
    | none =>
      split
      · rfl
      · next hne =>
        rw [if_neg, Option.map_none]
        intro hhead
        obtain ⟨r, hr⟩ := head?_eq_some_iff.mp hhead
        have hs := takeWhile_append_drop (· != CodePoint.char '\x7d') rest
        rw [hr] at hs
        rw [enclosed?_nil_eq_some_iff.mpr ⟨r, hs.symm, hne, not_mem_takeWhile_ne, rfl⟩] at hin
        cases hin
    | some p =>
      obtain ⟨inner, used⟩ := p
      obtain ⟨after, rfl, hne, hstop, rfl⟩ := enclosed?_nil_eq_some_iff.mp hin
      have hdrop : (inner ++ CodePoint.char '\x7d' :: after).drop inner.length = .char '\x7d' :: after :=
        drop_left
      have hdrop' : (inner ++ CodePoint.char '\x7d' :: after).drop (inner.length + 1) = after := by
        rw [← drop_drop, hdrop]
        rfl
      rw [takeWhile_ne after hstop, if_neg hne, hdrop, if_pos head?_cons]
      simp only [Option.map_some, closing, hdrop', drop_succ_cons, drop_zero]
      split <;> simp [Nat.add_assoc, ← drop_drop, hdrop]
  · -- what ends the steps is a closing brace
    intro d x r hd hx
    have : x ≠ .char '\x7d' := by simpa [CharSet.has] using hx
    simp [hd, this]

theorem closing_append (a s : Text) (used : Nat) :
    closing (a ++ s) (a.length + used) = a.length + closing s used := by
  rw [closing, closing, drop_length_add_append]
  split <;> rfl

theorem run_opened (pos : Nat) (s : Text) (hsize : pos + s.length ≤ size) :
    run size (.seq dotsPattern (.seq (.lit [.char '/']) innerPattern)) ⟨pos, s, []⟩ some =
      (braced? (.char '\x7b' :: s)).map fun p =>
        ⟨pos + closing s (p.2 - 1), s.drop (closing s (p.2 - 1)),
          [(2, pos + (p.1.1 + 1), pos + (p.1.1 + 1) + p.1.2.length), (1, pos, pos + p.1.1)]⟩ := by
  have hafter : after? [.char '\x7b'] (.char '\x7b' :: s) = some s := by simp [after?]
  rw [run_dots _ _ hsize, braced?]
  simp only [Option.bind_eq_bind, hafter, Option.bind_some]
  cases hdots : ComponentTree.dots? s with
  | none => rfl
  | some d =>
    obtain ⟨n, rest⟩ := d
    obtain ⟨-, rfl⟩ := ComponentTree.dots?_eq_some_iff.mp hdots
    simp only [length_append, length_dotsText] at hsize
    simp only [Option.bind_some]
    rw [run_inner _ (by simp only; omega)]
    cases enclosed? [] (.char '\x7d') rest with
    | none => rfl
    | some p =>
      obtain ⟨inner, used⟩ := p
      have hused : n + 2 + used - 1 = (dotsText n).length + used := by rw [length_dotsText]; omega
      simp only [Option.map_some, Option.bind_some, Option.pure_def, Cursor.advance, hused, closing_append,
        drop_length_add_append]
      simp only [length_dotsText, Nat.add_assoc]

/-- The steps of a reference between single or doubled braces at the front of a text, with the number of
its characters. -/
def bracedTwice? (s : Text) : Option (Text × Nat) :=
  if s.take 2 = [.char '\x7b', .char '\x7b'] then
    (braced? (s.drop 1)).map fun p => (p.1.2, closing s (p.2 + 1))
  else (braced? s).map fun p => (p.1.2, closing s p.2)

/-- What a match from the opening brace on says about the text. -/
theorem read_opened {front braces : Text} {extra : Nat}
    (hbraces : braces.length = extra + 1) (h : braced? (.char '\x7b' :: s) = some ((n, inner), used)) :
    let pos := front.length + braces.length
    let m : Match := ⟨front ++ (braces ++ s), front.length, pos + closing s (used - 1),
      [(2, pos + (n + 1), pos + (n + 1) + inner.length), (1, pos, pos + n)]⟩
    (m.groupText 2, m.last - front.length) = (inner, closing (braces ++ s) (used + extra)) := by
  obtain ⟨-, -, -, rfl, after, hs⟩ := braced?_eq_some_iff.mp h
  obtain rfl := (cons.inj hs).2
  refine Prod.ext ?_ ?_
  · have htext : front ++ (braces ++ (dotsText n ++ (inner ++ .char '\x7d' :: after))) =
        (front ++ braces ++ dotsText n) ++ (inner ++ .char '\x7d' :: after) := by simp
    have hlen : (front ++ braces ++ dotsText n).length = front.length + braces.length + (n + 1) := by
      simp [Nat.add_assoc]
    simp only [Match.groupText, Match.group?, find?_cons, beq_self_eq_true, Option.map_some, Option.getD_some]
    rw [htext, ← hlen, take_length_add_append, take_left, drop_left]
  · have hused : n + 3 + inner.length + extra = braces.length + (n + 3 + inner.length - 1) := by omega
    simp only [hused, closing_append]
    omega

theorem braced?_of_head (hx : x ≠ .char '\x7b') : braced? (x :: r) = none := by
  refine Option.eq_none_iff_forall_ne_some.mpr ?_
  rintro ⟨⟨n, inner⟩, used⟩ h
  obtain ⟨-, -, -, -, after, hs⟩ := braced?_eq_some_iff.mp h
  exact hx (cons.inj hs).1

theorem braced?_of_second (hx : x ≠ .char '.') : braced? (.char '\x7b' :: x :: r) = none := by
  refine Option.eq_none_iff_forall_ne_some.mpr ?_
  rintro ⟨⟨n, inner⟩, used⟩ h
  obtain ⟨hn, -, -, -, after, hs⟩ := braced?_eq_some_iff.mp h
  obtain ⟨m, rfl⟩ := Nat.exists_eq_add_of_le hn
  rw [Nat.add_comm, dotsText_succ] at hs
  exact hx (cons.inj (cons.inj hs).2).1

/-- **The search reads one reference as it is written.** -/
theorem matchAt?_expressionPattern (front rest : Text) :
    (expressionPattern.matchAt? (front ++ rest) front.length rest).map
      (fun m => (m.groupText 2, m.last - front.length)) = bracedTwice? rest := by
  -- the match that follows some braces
  have hopened : ∀ (braces s : Text) (extra : Nat), rest = braces ++ s → braces.length = extra + 1 →
      ((run (front ++ rest).length (.seq dotsPattern (.seq (.lit [.char '/']) innerPattern))
        ⟨front.length + braces.length, s, []⟩ some).map fun d =>
          (⟨front ++ rest, front.length, d.pos, d.groups⟩ : Match)).map
            (fun m => (m.groupText 2, m.last - front.length)) =
        (braced? (.char '\x7b' :: s)).map fun p => (p.1.2, closing rest (p.2 + extra)) := by
    rintro braces s extra rfl hbraces
    rw [run_opened _ _ (by simp [Nat.add_assoc])]
    cases h : braced? (.char '\x7b' :: s) with
    | none => rfl
    | some p => exact congrArg some (read_opened hbraces h)
  rw [matchAt?, expressionPattern_eq, run_seq, run_once_or_twice]
  cases rest with
  | nil => rfl
  | cons x r =>
    simp only [drop_succ_cons, drop_zero, head?_cons, Option.some.injEq]
    by_cases hx : x = .char '\x7b'
    · subst hx
      rw [if_pos rfl, bracedTwice?]
      by_cases hy : r.head? = some (.char '\x7b')
      · -- of two braces only the second one opens a reference
        obtain ⟨t, rfl⟩ := head?_eq_some_iff.mp hy
        have hone := hopened [.char '\x7b'] (.char '\x7b' :: t) 0 rfl rfl
        rw [braced?_of_second (by decide), Option.map_none, Option.map_eq_none_iff, Option.map_eq_none_iff] at hone
        have hadvance : Cursor.advance ⟨front.length, .char '\x7b' :: .char '\x7b' :: t, []⟩ 1 =
            ⟨front.length + [CodePoint.char '\x7b'].length, .char '\x7b' :: t, []⟩ := rfl
        rw [if_pos hy, hadvance, hone, Option.or_none]
        exact hopened [.char '\x7b', .char '\x7b'] t 1 rfl rfl
      · have htake : ¬ (char '\x7b' :: r).take 2 = [.char '\x7b', .char '\x7b'] := by
          cases r with
          | nil => simp
          | cons y t => simpa using hy
        rw [if_neg hy, if_neg htake]
        exact hopened [.char '\x7b'] r 0 rfl rfl
    · rw [if_neg hx, bracedTwice?, if_neg (by simp [hx]), braced?_of_head hx]
      rfl

end Patterns

theorem scan_of_braced? {p : (Nat × Text) × Nat} (h : braced? s = some p) :
    scan braced? s = p.1 :: scan braced? (s.drop p.2) := by
  obtain ⟨⟨n, inner⟩, used⟩ := p
  obtain ⟨-, -, -, rfl, after, rfl⟩ := braced?_eq_some_iff.mp h
  have hused : n + 3 + inner.length = n + 2 + inner.length + 1 := by omega
  rw [hused] at h ⊢
  exact scan_of_some h (by simp)

/-- A closing brace that follows a reference belongs to no other one. -/
theorem scan_drop_closing (s : Text) (k : Nat) : scan braced? (s.drop (closing s k)) = scan braced? (s.drop k) := by
  rw [closing]
  split
  · next h =>
    obtain ⟨t, ht⟩ := head?_eq_some_iff.mp h
    rw [← drop_drop, ht, scan_of_none (braced?_of_head (by decide))]
    rfl
  · rfl

/-- A second brace around a reference changes nothing for the references that are found. -/
theorem scan_bracedTwice (s : Text) : scan bracedTwice? s = (scan braced? s).map (·.2) := by
  induction h : s.length using Nat.strongRecOn generalizing s with
  | ind n ih =>
    subst h
    -- a find of both ways of reading, and what follows it
    have hfound : ∀ (r : Text) (p : (Nat × Text) × Nat) (k : Nat), s ≠ [] → braced? r = some p →
        scan braced? s = scan braced? r → r.drop p.2 = s.drop (k + 1) →
        bracedTwice? s = some (p.1.2, closing s (k + 1)) →
        scan bracedTwice? s = (scan braced? s).map (·.2) := by
      intro r p k hs hp hscan hdrop htwice
      obtain ⟨m, hm⟩ : ∃ m, closing s (k + 1) = m + 1 := by
        rw [closing]
        split
        · exact ⟨k + 1, rfl⟩
        · exact ⟨k, rfl⟩
      have hlen : (s.drop (m + 1)).length < s.length := by
        have := length_pos_iff.mpr hs
        rw [length_drop]
        omega
      rw [hm] at htwice
      rw [scan_of_some htwice hs, ih _ hlen _ rfl, hscan, scan_of_braced? hp, hdrop, ← hm,
        scan_drop_closing, map_cons]
    cases s with
    | nil => rfl
    | cons c r =>
      by_cases htake : (c :: r).take 2 = [.char '\x7b', .char '\x7b']
      · obtain ⟨t, rfl, rfl⟩ : ∃ t, c = .char '\x7b' ∧ r = .char '\x7b' :: t := by
          cases r with
          | nil => simp at htake
          | cons y t => exact ⟨t, by simpa using htake⟩
        have hscan : scan braced? (.char '\x7b' :: .char '\x7b' :: t) =
            scan braced? (.char '\x7b' :: t) := scan_of_none (braced?_of_second (by decide))
        cases hp : braced? (.char '\x7b' :: t) with
        | none =>
          have htwice : bracedTwice? (.char '\x7b' :: .char '\x7b' :: t) = none := by
            rw [bracedTwice?, if_pos htake, drop_succ_cons, drop_zero, hp]
            rfl
          rw [scan_of_none htwice, hscan]
          exact ih _ (by simp) _ rfl
        | some p =>
          refine hfound _ p p.2 (by simp) hp hscan rfl ?_
          rw [bracedTwice?, if_pos htake, drop_succ_cons, drop_zero, hp]
          rfl
      · have htwice : bracedTwice? (c :: r) =
            (braced? (c :: r)).map fun p => (p.1.2, closing (c :: r) p.2) := by rw [bracedTwice?, if_neg htake]
        cases hp : braced? (c :: r) with
        | none =>
          rw [hp] at htwice
          rw [scan_of_none htwice, scan_of_none hp]
          exact ih _ (by simp) _ rfl
        | some p =>
          obtain ⟨⟨n, inner⟩, used⟩ := p
          obtain ⟨k, rfl⟩ : ∃ k, used = k + 1 := by
            obtain ⟨-, -, -, rfl, -⟩ := braced?_eq_some_iff.mp hp
            exact ⟨n + 2 + inner.length, by omega⟩
          rw [hp] at htwice
          exact hfound _ _ k (by simp) hp rfl rfl htwice

theorem findAll_expressionPattern (s : Text) :
    (expressionPattern.findAll s).map (·.groupText 2) = (scan braced? s).map (·.2) := by
  rw [← scan_bracedTwice]
  exact Pattern.findAllFrom_eq_scanFrom rfl (fun front rest h => h ▸ matchAt?_expressionPattern front rest) 0 [] s rfl

theorem inExpression_eq (value name : Text) :
    inExpression value name = (scan braced? value).any fun r => (steps r.2).contains name := by
  have h := congrArg (·.any fun inner => (steps inner).contains name) (findAll_expressionPattern value)
  simp only [any_map] at h
  exact h

/-! ## References as whole texts -/

/-- The dots and the steps of a relative reference that a text is: one line, which a line feed may end. -/
def relative? (s : Text) : Option (Nat × Text) := do
  let (count, rest) ← ComponentTree.dots? s
  let line := rest.takeWhile (· != .char '\n')
  let ends := rest.drop line.length
  if line.isEmpty || !(ends.isEmpty || ends == [.char '\n']) then none
  else return (count, line)

/-- What may follow the line of a reference. -/
def IsLineEnd (ends : Text) : Prop := ends = [] ∨ ends = [.char '\n']

theorem takeWhile_line {ends : Text} (hline : .char '\n' ∉ line) (hends : IsLineEnd ends) :
    (line ++ ends).takeWhile (· != .char '\n') = line := by
  rcases hends with rfl | rfl
  · rw [append_nil]
    exact takeWhile_eq_self_iff.mpr fun x hx => bne_iff_ne.mpr fun e => hline (e ▸ hx)
  · exact takeWhile_ne [] hline

/-- **A reference as a whole text is what is written so.** -/
theorem relative?_eq_some_iff : relative? s = some (n, line) ↔
      2 ≤ n ∧ line ≠ [] ∧ .char '\n' ∉ line ∧ ∃ ends, IsLineEnd ends ∧ s = dotsText n ++ (line ++ ends) := by
  simp only [relative?, Option.bind_eq_bind, Option.bind_eq_some_iff, Prod.exists, dots?_eq_some_iff]
  constructor
  · rintro ⟨k, rest, ⟨hk, rfl⟩, h⟩
    split at h
    · cases h
    · next hline =>
      cases h
      rw [Bool.or_eq_true, not_or, Bool.not_eq_true', Bool.not_eq_false, Bool.or_eq_true] at hline
      refine ⟨hk, by simpa using hline.1, not_mem_takeWhile_ne, _, ?_,
        congrArg _ (takeWhile_append_drop _ rest).symm⟩
      exact hline.2.imp isEmpty_iff.mp beq_iff_eq.mp
  · rintro ⟨hn, hne, hline, ends, hends, rfl⟩
    have hdrop : (line ++ ends).drop line.length = ends := drop_left
    refine ⟨n, line ++ ends, ⟨hn, rfl⟩, ?_⟩
    rw [takeWhile_line hline hends, hdrop, if_neg]
    · rfl
    · rcases hends with rfl | rfl <;> simp [hne]

section Patterns

open Pattern

variable {size : Nat}

theorem relativePattern_eq : relativePattern = .seq .start (.seq dotsPattern (.seq (.lit [.char '/'])
      (.seq (.group 2 (.many1 .any)) (.seq .finish .empty)))) := rfl

theorem run_line (c : Cursor) (hsize : c.pos + c.rest.length ≤ size) :
    run size (.seq (.group 2 (.many1 .any)) (.seq .finish .empty)) c some =
      let line := c.rest.takeWhile (· != .char '\n')
      let ends := c.rest.drop line.length
      if line.isEmpty || !(ends.isEmpty || ends == [.char '\n']) then none
      else some (({ c with groups := (2, c.pos, c.pos + line.length) :: c.groups } : Cursor).advance line.length) := by
  have hhas : CharSet.any.has = (· != CodePoint.char '\n') := rfl
  simp only [run_seq, run_group]
  rw [run_many1 _ _ hsize]
  · simp only [hhas, run, Cursor.advance]
    by_cases hline : c.rest.takeWhile (· != CodePoint.char '\n') = []
    · simp [hline]
    · rw [if_neg hline]
      cases (c.rest.drop (c.rest.takeWhile (· != CodePoint.char '\n')).length).isEmpty ||
        c.rest.drop (c.rest.takeWhile (· != CodePoint.char '\n')).length == [CodePoint.char '\n'] <;>
        simp [hline]
  · -- a line ends where the text ends or before its last line feed
    intro d x r hd hx
    have : x ≠ .char '\n' := by simpa [CharSet.has] using hx
    simp [run, hd, this]

theorem matchStart?_relativePattern (s : Text) :
    (relativePattern.matchStart? s).map (·.groupText 2) = (relative? s).map (·.2) := by
  rw [matchStart?, matchAt?, relativePattern_eq, run_seq, run, if_pos (beq_self_eq_true 0),
    run_dots _ _ (by simp), relative?]
  simp only [Option.bind_eq_bind]
  cases hdots : dots? s with
  | none => rfl
  | some d =>
    obtain ⟨n, rest⟩ := d
    obtain ⟨-, rfl⟩ := dots?_eq_some_iff.mp hdots
    simp only [Option.bind_some]
    rw [run_line _ (by simp)]
    simp only
    split
    · rfl
    · simp only [Option.map_some, Option.pure_def, Match.groupText, Match.group?, Cursor.advance,
        find?_cons, beq_self_eq_true, Option.getD_some, Nat.zero_add, Option.some.injEq]
      rw [← length_dotsText, take_length_add_append, drop_left, ← prefix_iff_eq_take.mp ( takeWhile_prefix _)]

end Patterns

theorem inRelativePath_eq (value name : Text) :
    inRelativePath value name = (relative? value).any fun r => (steps r.2).contains name := by
  have h := congrArg (·.any fun line => (steps line).contains name) (matchStart?_relativePattern value)
  simp only [Option.any_map] at h
  rw [inRelativePath]
  cases hm : relativePattern.matchStart? value <;> rw [hm] at h <;> exact h

end Reference

end ViewLint
