import Mathlib.Data.List.Basic
import Mathlib.Tactic.Common
import ViewLint.Pattern.Basic
import ViewLint.Text.Scan

/-!
# Matching without alternatives

Where what follows a repetition refuses the repeated characters, the first way that works is the only
one. Such a pattern reads a text from left to right.

* `Pattern.run_many1`, `Pattern.run_once_or_twice`: the parts of such patterns.
* `Pattern.findAllFrom_eq_scanFrom`: a search for all matches is a scan, if a step reads what a match reads.
-/

namespace ViewLint

open List

/-! ## Scanning -/

namespace Text

variable {α β : Type} {step : Text → Option (α × Nat)} {find : α}

theorem scanFrom_eq_scan (step : Text → Option (α × Nat)) (skip : Nat) (s : Text) :
    scanFrom step skip s = scan step (s.drop skip) := by
  induction s generalizing skip with
  | nil => simp [scan, scanFrom]
  | cons c r ih =>
    cases skip with
    | zero => rfl
    | succ skip => exact ih skip

theorem scan_of_some {s : Text} {used : Nat} (h : step s = some (find, used + 1)) (hs : s ≠ []) :
    scan step s = find :: scan step (s.drop (used + 1)) := by
  obtain ⟨c, r, rfl⟩ := exists_cons_of_ne_nil hs
  rw [scan, scanFrom, h]
  simp only [Nat.add_sub_cancel, scanFrom_eq_scan, drop_succ_cons]

theorem scan_of_none {c : CodePoint} {r : Text} (h : step (c :: r) = none) : scan step (c :: r) = scan step r := by
  rw [scan, scanFrom, h]
  rfl

theorem exists_of_mem_scan {s : Text} (h : find ∈ scan step s) : ∃ t used, t <:+ s ∧ step t = some (find, used) := by
  rw [scan] at h
  generalize 0 = skip at h
  induction s generalizing skip with
  | nil => cases h
  | cons c r ih =>
    have hlater {skip : Nat} (h : find ∈ scanFrom step skip r) :
        ∃ t used, t <:+ c :: r ∧ step t = some (find, used) := by
      obtain ⟨t, used, ht, hfind⟩ := ih skip h
      exact ⟨t, used, ht.trans (suffix_cons c r), hfind⟩
    cases skip with
    | succ skip => exact hlater h
    | zero =>
      rw [scanFrom] at h
      cases hstep : step (c :: r) with
      | none => rw [hstep] at h; exact hlater h
      | some p =>
        rw [hstep] at h
        obtain rfl | h := mem_cons.mp h
        · exact ⟨c :: r, p.2, suffix_rfl, hstep⟩
        · exact hlater h

end Text

namespace Pattern

/-! ## The parts of a pattern -/

/-- A place some characters further on. -/
def Cursor.advance (c : Cursor) (n : Nat) : Cursor := { c with pos := c.pos + n, rest := c.rest.drop n }

variable {size : Nat} {next : Next}

@[simp] theorem run_empty (c : Cursor) : run size .empty c next = next c := rfl

@[simp] theorem run_seq (p q : Pattern) (c : Cursor) :
    run size (.seq p q) c next = run size p c fun d => run size q d next := rfl

@[simp] theorem run_group (index : Nat) (p : Pattern) (c : Cursor) : run size (.group index p) c next =
      run size p c fun d => next { d with groups := (index, c.pos, d.pos) :: d.groups } := rfl

theorem run_set (cs : CharSet) (c : Cursor) :
    run size (.set cs) c next = if (c.rest.head?.any cs.has) = true then next (c.advance 1) else none := by
  obtain ⟨pos, rest, groups⟩ := c
  cases rest <;> simp [run, Cursor.advance]

theorem run_char (x : CodePoint) (c : Cursor) :
    run size (.lit [x]) c next = if c.rest.head? = some x then next (c.advance 1) else none := by
  change run size (.set (.char x)) c (fun d => run size .empty d next) = _
  rw [run_set]
  obtain ⟨pos, rest, groups⟩ := c
  cases rest <;> simp [CharSet.has]

section Repetition

variable {body : Cursor → Next → Option Cursor} {min : Nat} {max : Option Nat} {fuel count : Nat} {c : Cursor}

theorem repeatRun_must (hmin : count < min) (hmax : max ≠ some count) :
    repeatRun body true min max (fuel + 1) count c next =
      body c fun d => repeatRun body true min max fuel (count + 1) d next := by
  have hle : ¬ min ≤ count := by omega
  simp [repeatRun, hmin, hmax, hle]

/-- A round that may be made, if it leads on. -/
theorem repeatRun_may (hmin : min ≤ count) (hmax : max ≠ some count) :
    repeatRun body true min max (fuel + 1) count c next = (body c fun d =>
        if d.pos = c.pos then none else repeatRun body true min max fuel (count + 1) d next).or (next c) := by
  have hlt : ¬ count < min := by omega
  simp only [repeatRun, hlt, hmin, beq_iff_eq, hmax, if_false, if_true, decide_true, Bool.and_true]
  cases body c fun d =>
    if d.pos = c.pos then none else repeatRun body true min max fuel (count + 1) d next <;> rfl

theorem repeatRun_enough (hmin : min ≤ count) (hmax : max = some count) :
    repeatRun body true min max fuel count c next = next c := by
  have hlt : ¬ count < min := by omega
  cases fuel <;> simp [repeatRun, hlt, hmin, hmax]

end Repetition

/-- One or two of a character, as many as possible. -/
theorem run_once_or_twice (x : CodePoint) (c : Cursor) : run size (.rep true 1 (some 2) (.lit [x])) c next =
      if c.rest.head? = some x then
        if (c.rest.drop 1).head? = some x then (next (c.advance 2)).or (next (c.advance 1))
        else next (c.advance 1)
      else none := by
  rw [run, repeatRun_must (by omega) (by simp), run_char]
  split
  · rw [repeatRun_may (by omega) (by simp), run_char]
    have hrest : (c.advance 1).rest = c.rest.drop 1 := rfl
    rw [hrest]
    split
    · have hpos : ¬ ((c.advance 1).advance 1).pos = (c.advance 1).pos := by simp [Cursor.advance]
      rw [if_neg hpos, repeatRun_enough (by omega) rfl]
      simp [Cursor.advance]
    · rfl
  · rfl

/-- What goes on refuses the characters of a set. -/
def Refuses (cs : CharSet) (next : Next) : Prop :=
  ∀ d x r, d.rest = x :: r → cs.has x = true → next d = none

theorem repeatRun_set {cs : CharSet} (hnext : Refuses cs next) {fuel count : Nat} {c : Cursor}
    (hcount : 1 ≤ count) (hfuel : c.rest.length < fuel) :
    repeatRun (run size (.set cs)) true 1 none fuel count c next =
      next (c.advance (c.rest.takeWhile cs.has).length) := by
  induction fuel generalizing count c with
  | zero => omega
  | succ fuel ih =>
    rw [repeatRun_may hcount (by simp), run_set]
    obtain ⟨pos, rest, groups⟩ := c
    cases rest with
    | nil => rfl
    | cons x r =>
      by_cases hx : cs.has x = true
      · have hpos : ¬ (Cursor.advance ⟨pos, x :: r, groups⟩ 1).pos = pos := by simp [Cursor.advance]
        rw [if_pos (by simpa using hx), if_neg hpos,
          ih (by omega) (by simpa [Cursor.advance] using Nat.lt_of_succ_lt_succ hfuel),
          hnext ⟨pos, x :: r, groups⟩ x r rfl hx]
        simp [Cursor.advance, hx, Nat.add_assoc, Nat.add_comm 1]
      · rw [if_neg (by simpa using hx)]
        simp [Cursor.advance, hx]

theorem run_many1 {cs : CharSet} (hnext : Refuses cs next) (c : Cursor) (hsize : c.pos + c.rest.length ≤ size) :
    run size (.many1 cs) c next =
      if c.rest.takeWhile cs.has = [] then none
      else next (c.advance (c.rest.takeWhile cs.has).length) := by
  rw [many1, run, repeatRun_must (by omega) (by simp), run_set]
  obtain ⟨pos, rest, groups⟩ := c
  cases rest with
  | nil => rfl
  | cons x r =>
    simp only [List.length_cons] at hsize
    by_cases hx : cs.has x = true
    · rw [if_pos (by simpa using hx), repeatRun_set hnext (by omega)
        (by simp only [Cursor.advance, List.drop_succ_cons, List.drop_zero]; omega)]
      simp [Cursor.advance, hx, Nat.add_assoc, Nat.add_comm 1]
    · rw [if_neg (by simpa using hx), List.takeWhile_cons, if_neg hx, if_pos rfl]

/-! ## All matches -/

section Scan

variable {α : Type} {p : Pattern} {text : Text} {read : Match → α} {step : Text → Option (α × Nat)}
  (hnil : step [] = none)
  (hstep : ∀ front rest, text = front ++ rest →
    (p.matchAt? text front.length rest).map (fun m => (read m, m.last - front.length)) = step rest)

include hnil hstep

/-- **A search for all matches is a scan**, if a step reads what a match reads. -/
theorem findAllFrom_eq_scanFrom (skip : Nat) (front rest : Text) (h : text = front ++ rest) :
    (p.findAllFrom text skip front.length rest).map read = Text.scanFrom step skip rest := by
  induction rest generalizing skip front with
  | nil =>
    have hs := hstep front [] h
    rw [hnil, Option.map_eq_none_iff] at hs
    simp [findAllFrom, hs, Text.scanFrom]
  | cons x r ih =>
    have hlen : front.length + 1 = (front ++ [x]).length := by simp
    have h' : text = (front ++ [x]) ++ r := by simpa using h
    cases skip with
    | succ skip =>
      rw [findAllFrom, Text.scanFrom, hlen]
      exact ih skip _ h'
    | zero =>
      rw [findAllFrom, Text.scanFrom, ← hstep front (x :: r) h]
      cases p.matchAt? text front.length (x :: r) with
      | none =>
        simp only [Option.map_none, hlen]
        exact ih 0 _ h'
      | some m =>
        simp only [Option.map_some, map_cons, hlen]
        exact congrArg _ (ih _ _ h')

end Scan

end Pattern

end ViewLint
