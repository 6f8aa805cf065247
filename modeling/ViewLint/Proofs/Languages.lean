import Mathlib.Computability.Language
import ViewLint.Proofs.Relative

/-!
# The languages of patterns

A pattern without anchors reads the words of a language: whatever comes next, the matcher succeeds exactly if
what comes next succeeds after one of the words. So the ways that it tries one after another are enough.

* **`Pattern.reads_rep`**: the languages of the parts of a pattern.
* **`Pattern.matchStart?_anchored`**: a pattern between anchors matches the texts of its language.
-/

namespace ViewLint.Pattern

open Text Computability List Cursor Language

/-! ## Reading words -/

/-- A place in a text of some length. -/
def Cursor.Within (size : Nat) (c : Cursor) : Prop := c.pos + c.rest.length = size

theorem Cursor.Within.advance {size : Nat} {c : Cursor} (h : c.Within size) {w r : Text} (hrest : c.rest = w ++ r) :
    (c.advance w.length).Within size ∧ (c.advance w.length).rest = r := by
  have hdrop : (c.advance w.length).rest = r := by simp only [Cursor.advance, hrest, drop_left]
  refine ⟨?_, hdrop⟩
  rw [Within, hrest, length_append] at h
  rw [Within, hdrop]
  simp only [Cursor.advance]
  omega

/-- What comes next does not look at the groups. -/
def Blind (size : Nat) (next : Next) : Prop :=
  ∀ d e : Cursor, d.Within size → d.pos = e.pos → d.rest = e.rest → ((next d).isSome = true ↔ (next e).isSome = true)

/-- A pattern reads the words of a language. -/
def Reads (size : Nat) (p : Pattern) (L : Language CodePoint) : Prop :=
  ∀ c : Cursor, c.Within size → ∀ next, Blind size next → ((run size p c next).isSome = true ↔
    ∃ w ∈ L, ∃ r, c.rest = w ++ r ∧ (next (c.advance w.length)).isSome = true)

variable {size : Nat} {p q : Pattern} {L M : Language CodePoint} {next : Next}

/-- After a pattern that reads a language, the groups do not matter either. -/
theorem Reads.blind (hp : Reads size p L) (hnext : Blind size next) : Blind size fun d => run size p d next := by
  intro d e hd hpos hrest
  have he : e.Within size := by rwa [Within, ← hpos, ← hrest]
  rw [hp d hd next hnext, hp e he next hnext, hrest]
  refine exists_congr fun w => and_congr_right fun _ => exists_congr fun r => and_congr_right fun hr => ?_
  refine hnext _ _ (hd.advance (hrest.trans hr)).1 ?_ ?_
  · simp only [advance, hpos]
  · simp only [advance, hrest]

theorem reads_empty : Reads size .empty 1 := by
  intro c _ next _
  constructor
  · exact fun h => ⟨[], rfl, c.rest, rfl, h⟩
  · rintro ⟨w, rfl, r, -, h⟩
    exact h

def letters (cs : CharSet) : Language CodePoint := {w | ∃ x, cs.has x = true ∧ w = [x]}

theorem reads_set (cs : CharSet) : Reads size (.set cs) (letters cs) := by
  intro c _ next _
  rw [run_set]
  constructor
  · intro h
    split at h
    · next hhead =>
      cases hrest : c.rest with
      | nil => simp [hrest] at hhead
      | cons x r =>
        rw [hrest] at hhead
        exact ⟨[x], ⟨x, hhead, rfl⟩, r, rfl, h⟩
    · cases h
  · rintro ⟨w, ⟨x, hx, rfl⟩, r, hrest, h⟩
    rw [if_pos (by simp [hrest, hx])]
    exact h

theorem reads_seq (hp : Reads size p L) (hq : Reads size q M) : Reads size (.seq p q) (L * M) := by
  intro c hc next hnext
  rw [run_seq, hp c hc _ (hq.blind hnext)]
  constructor
  · rintro ⟨w, hw, r, hrest, h⟩
    obtain ⟨hwithin, hr⟩ := hc.advance hrest
    obtain ⟨v, hv, t, ht, h⟩ := (hq _ hwithin next hnext).mp h
    refine ⟨w ++ v, append_mem_mul hw hv, t, by rw [hrest, append_assoc, ← ht, hr], ?_⟩
    simpa [advance, Nat.add_assoc] using h
  · rintro ⟨_, hwv, t, hrest, h⟩
    obtain ⟨w, hw, v, hv, rfl⟩ := mem_mul.mp hwv
    rw [append_assoc] at hrest
    obtain ⟨hwithin, hr⟩ := hc.advance hrest
    refine ⟨w, hw, v ++ t, hrest, (hq _ hwithin next hnext).mpr ⟨v, hv, t, hr, ?_⟩⟩
    simpa [advance, Nat.add_assoc] using h

theorem reads_group (index : Nat) (hp : Reads size p L) : Reads size (.group index p) L := by
  intro c hc next hnext
  have hsame (d : Cursor) (hd : d.Within size) :
      (next { d with groups := (index, c.pos, d.pos) :: d.groups }).isSome = true ↔ (next d).isSome = true :=
    hnext _ d hd rfl rfl
  rw [run_group, hp c hc]
  · exact exists_congr fun w => and_congr_right fun _ => exists_congr fun r => and_congr_right fun hr =>
      hsame _ (hc.advance hr).1
  · intro d e hd hpos hrest
    have he : e.Within size := by rwa [Within, ← hpos, ← hrest]
    rw [hsame d hd, hsame e he]
    exact hnext d e hd hpos hrest

/-- A word of a repetition is empty, or it starts with a word of what is repeated. -/
theorem mem_kstar_iff {w : Text} : w ∈ L∗ ↔ w = [] ∨ ∃ v ∈ L, ∃ u ∈ L∗, w = v ++ u := by
  conv_lhs => rw [← one_add_self_mul_kstar_eq_kstar]
  rw [mem_add, mem_one, mem_mul]
  exact or_congr_right (exists_congr fun v => and_congr_right fun _ =>
    exists_congr fun u => and_congr_right fun _ => eq_comm)

section Repetition

variable (hp : Reads size p L) (hnext : Blind size next)

include hp hnext

theorem blind_repeatRun (fuel count : Nat) :
    Blind size fun d => repeatRun (run size p) true 0 none fuel count d next := by
  induction fuel generalizing count with
  | zero => simpa [repeatRun] using hnext
  | succ fuel ih =>
    intro d e hd hpos hrest
    simp only [repeatRun_may (Nat.zero_le count) (Option.some_ne_none count).symm, Option.isSome_or, Bool.or_eq_true]
    refine or_congr ?_ (hnext d e hd hpos hrest)
    rw [hpos]
    refine hp.blind ?_ d e hd hpos hrest
    intro x y hx hxy hrest
    simp only [hxy]
    split
    · exact Iff.rfl
    · exact ih (count + 1) x y hx hxy hrest

/-- The rounds of a repetition read one word each. The induction is on the fuel, which is more than the text
that is left, as every round takes something away. -/
theorem repeatRun_isSome_iff (hnil : [] ∉ L) (fuel count : Nat) (c : Cursor) (hc : c.Within size)
    (hfuel : c.rest.length < fuel) : (repeatRun (run size p) true 0 none fuel count c next).isSome = true ↔
      ∃ w ∈ L∗, ∃ r, c.rest = w ++ r ∧ (next (c.advance w.length)).isSome = true := by
  induction fuel generalizing count c with
  | zero => omega
  | succ fuel ih =>
    have hround : Blind size fun d =>
        if d.pos = c.pos then none else repeatRun (run size p) true 0 none fuel (count + 1) d next := by
      intro d e hd hpos hrest
      simp only [hpos]
      split
      · exact Iff.rfl
      · exact blind_repeatRun hp hnext fuel (count + 1) d e hd hpos hrest
    have hlater {v r : Text} (hv : v ∈ L) (hr : c.rest = v ++ r) : ((if (c.advance v.length).pos = c.pos then none
          else repeatRun (run size p) true 0 none fuel (count + 1) (c.advance v.length) next).isSome = true ↔
        ∃ u ∈ L∗, ∃ t, r = u ++ t ∧ (next (c.advance (v ++ u).length)).isSome = true) := by
      have hpos : 0 < v.length := length_pos_of_ne_nil fun h => hnil (h ▸ hv)
      obtain ⟨hwithin, hrest⟩ := hc.advance hr
      rw [if_neg (by simp only [advance]; omega), ih (count + 1) _ hwithin, hrest]
      · simp only [advance, drop_drop, length_append, Nat.add_assoc]
      · rw [hr, length_append] at hfuel
        rw [hrest]
        omega
    rw [repeatRun_may (Nat.zero_le count) (Option.some_ne_none count).symm, Option.isSome_or, Bool.or_eq_true,
      hp c hc _ hround]
    constructor
    · rintro (⟨v, hv, r, hr, h⟩ | h)
      · obtain ⟨u, hu, t, rfl, h⟩ := (hlater hv hr).mp h
        exact ⟨v ++ u, mem_kstar_iff.mpr (.inr ⟨v, hv, u, hu, rfl⟩), t, by rw [hr, append_assoc], h⟩
      · exact ⟨[], nil_mem_kstar L, c.rest, rfl, h⟩
    · rintro ⟨w, hw, r, hr, h⟩
      obtain rfl | ⟨v, hv, u, hu, rfl⟩ := mem_kstar_iff.mp hw
      · exact .inr h
      · rw [append_assoc] at hr
        exact .inl ⟨v, hv, u ++ r, hr, (hlater hv hr).mpr ⟨u, hu, r, rfl, h⟩⟩

end Repetition

theorem reads_rep (hp : Reads size p L) (hnil : [] ∉ L) : Reads size (.rep true 0 none p) L∗ := by
  intro c hc next hnext
  have hfuel : c.rest.length < size - c.pos + 0 + 1 := by
    rw [Within] at hc
    omega
  exact repeatRun_isSome_iff hp hnext hnil _ 0 c hc hfuel

theorem mem_kstar_letters {cs : CharSet} {w : Text} : w ∈ (letters cs)∗ ↔ ∀ x ∈ w, cs.has x = true := by
  induction w with
  | nil => exact ⟨fun _ => nofun, fun _ => nil_mem_kstar _⟩
  | cons x w ih =>
    rw [forall_mem_cons, ← ih, mem_kstar_iff]
    constructor
    · rintro (h | ⟨_, ⟨y, hy, rfl⟩, u, hu, h⟩)
      · cases h
      · cases h
        exact ⟨hy, hu⟩
    · rintro ⟨hx, hw⟩
      exact .inr ⟨[x], ⟨x, hx, rfl⟩, w, hw, rfl⟩

theorem reads_many (cs : CharSet) : Reads size (.many cs) (letters cs)∗ :=
  reads_rep (reads_set cs) fun ⟨_, _, h⟩ => nomatch h

/-! ## Anchors -/

/-- **A pattern between anchors matches the texts of its language**, and those with a line feed behind. -/
theorem matchStart?_anchored {s : Text} (hp : Reads s.length p L) :
    ((Pattern.seq .start (.seq p (.seq .finish .empty))).matchStart? s).isSome = true ↔
      s ∈ L ∨ ∃ w ∈ L, s = w ++ [.char '\n'] := by
  have hfinish : Blind s.length fun d => run s.length .finish d some := by
    intro d e _ _ hrest
    simp only [run, hrest]
    split <;> rfl
  have hrun : ((Pattern.seq .start (.seq p (.seq .finish .empty))).matchStart? s).isSome =
      (run s.length p ⟨0, s, []⟩ fun d => run s.length .finish d some).isSome := by
    rw [matchStart?, matchAt?, Option.isSome_map]
    rfl
  rw [hrun, hp ⟨0, s, []⟩ (Nat.zero_add s.length) _ hfinish]
  have hend {w r : Text} (hr : s = w ++ r) :
      ((run s.length .finish (advance ⟨0, s, []⟩ w.length) some).isSome = true ↔
        r = [] ∨ r = [.char '\n']) := by
    have hrest : s.drop w.length = r := by rw [hr, drop_left]
    simp only [run, advance, hrest]
    split <;> simp_all
  constructor
  · rintro ⟨w, hw, r, hr, h⟩
    obtain rfl | rfl := (hend hr).mp h
    · have hs : s = w := hr.trans (append_nil w)
      exact .inl (hs ▸ hw)
    · exact .inr ⟨w, hw, hr⟩
  · rintro (h | ⟨w, hw, hr⟩)
    · have hr : s = s ++ [] := (append_nil s).symm
      exact ⟨s, h, [], hr, (hend hr).mpr (.inl rfl)⟩
    · exact ⟨w, hw, _, hr, (hend hr).mpr (.inr rfl)⟩

/-! ## Separators -/

theorem mem_separated_iff {sep : CharSet} (hL : ∀ w ∈ L, ∀ x ∈ w, sep.has x = false) {s : Text} :
    s ∈ L * (letters sep * L)∗ ↔ ∀ piece ∈ splitWhere sep.has s, piece ∈ L := by
  constructor
  · intro h
    obtain ⟨w, hw, u, hu, rfl⟩ := mem_mul.mp h
    obtain ⟨pieces, rfl, hpieces⟩ := mem_kstar.mp hu
    clear h hu
    induction pieces generalizing w with
    | nil =>
      rw [flatten_nil, append_nil, splitWhere_of_forall (hL w hw)]
      simpa using hw
    | cons piece pieces ih =>
      obtain ⟨hpiece, hlater⟩ := forall_mem_cons.mp hpieces
      obtain ⟨_, ⟨b, hb, rfl⟩, v, hv, rfl⟩ := mem_mul.mp hpiece
      rw [flatten_cons, append_assoc, singleton_append, splitWhere_append_cons _ (hL w hw) hb]
      exact forall_mem_cons.mpr ⟨hw, ih v hv hlater⟩
  · -- By strong induction on the length, cut at the first separator
    induction hn : s.length using Nat.strong_induction_on generalizing s with
    | _ n ih =>
      intro h
      have hs := takeWhile_append_drop (fun x => !sep.has x) s
      have hfront : ∀ x ∈ s.takeWhile (fun x => !sep.has x), sep.has x = false := fun x hx => by
        simpa using mem_takeWhile_imp hx
      cases hrest : s.drop (s.takeWhile fun x => !sep.has x).length with
      | nil =>
        rw [hrest, append_nil] at hs
        rw [← hs, splitWhere_of_forall hfront, hs, forall_mem_singleton] at h
        exact mem_mul.mpr ⟨s, h, [], nil_mem_kstar _, append_nil s⟩
      | cons b r =>
        have hb : sep.has b = true := by simpa using head_drop_takeWhile s hrest
        rw [hrest] at hs
        rw [← hs, splitWhere_append_cons r hfront hb] at h
        obtain ⟨hw, hpieces⟩ := forall_mem_cons.mp h
        have hlt : r.length < n := by
          rw [← hn, ← hs, length_append, length_cons]
          omega
        obtain ⟨v, hv, u, hu, rfl⟩ := mem_mul.mp (ih r.length hlt rfl hpieces)
        refine mem_mul.mpr ⟨_, hw, b :: (v ++ u), mem_kstar_iff.mpr (.inr ?_), hs⟩
        exact ⟨[b] ++ v, append_mem_mul ⟨b, hb, rfl⟩ hv, u, hu, rfl⟩

end ViewLint.Pattern
