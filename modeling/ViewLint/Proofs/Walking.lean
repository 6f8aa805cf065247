import ViewLint.Proofs.Fields
import ViewLint.Store.Basic

/-!
# Walks through a store

Where a name leads to is told step by step: a step stays, goes up, goes down, or passes a link.

* **`Store.walks_of_walk`**, **`Store.Walks.walk`**: a walk arrives exactly where its steps lead to.
* **`Store.Walks.put`**: what is put at the end of a walk is found there.
-/

namespace ViewLint.Store

open List Text

variable {step : Text} {r : Place × Option Entry} {s : Store} {follow : Bool} {links : Nat}
  {here p : Place} {steps : List Text}

/-! ## Walks -/

/-- Whether a directory stands at a place. -/
def IsDirectoryAt (s : Store) (p : Place) : Prop := ∃ age, s.entry? p = some (.directory age)

/-- A step that goes down, and can be taken. -/
structure IsDown (step : Text) : Prop where
  ne_stay : step ≠ "."
  ne_up : step ≠ ".."
  short : Text.encodedSize step ≤ stepLimit

def linkStart (here : Place) (target : Text) : Place := if FileName.isAbsolute target then [] else here

/-- Where steps lead to from a place, with some links that may be passed. -/
inductive Walks (s : Store) (follow : Bool) : Nat → Place → List Text → Place → Prop where
  | stop {links : Nat} {here : Place} : Walks s follow links here [] here
  | stay {links : Nat} {here p : Place} {rest : List Text} (hdir : s.IsDirectoryAt here) :
      Walks s follow links here rest p → Walks s follow links here ("." :: rest) p
  | up {links : Nat} {here p : Place} {rest : List Text} (hdir : s.IsDirectoryAt here) :
      Walks s follow links here.dropLast rest p → Walks s follow links here (".." :: rest) p
  /-- The last step may lead to nothing. -/
  | vacant {links : Nat} {here : Place} {step : Text} (hdir : s.IsDirectoryAt here) (hdown : IsDown step)
      (hentry : s.entry? (here ++ [step]) = none) : Walks s follow links here [step] (here ++ [step])
  | atLink {links : Nat} {here : Place} {step target : Text} (hdir : s.IsDirectoryAt here) (hdown : IsDown step)
      (hentry : s.entry? (here ++ [step]) = some (.link target)) (hfollow : follow = false) :
      Walks s follow links here [step] (here ++ [step])
  | link {links : Nat} {here p : Place} {step target : Text} {rest : List Text} (hdir : s.IsDirectoryAt here)
      (hdown : IsDown step) (hentry : s.entry? (here ++ [step]) = some (.link target))
      (hfollow : rest ≠ [] ∨ follow = true) :
      Walks s follow links (linkStart here target) (walkSteps target ++ rest) p →
      Walks s follow (links + 1) here (step :: rest) p
  | enter {links : Nat} {here p : Place} {step : Text} {rest : List Text} {e : Entry} (hdir : s.IsDirectoryAt here)
      (hdown : IsDown step) (hentry : s.entry? (here ++ [step]) = some e) (hlink : ∀ target, e ≠ .link target) :
      Walks s follow links (here ++ [step]) rest p → Walks s follow links here (step :: rest) p

theorem isDown_of (hstay : ¬ (step == ofString ".") = true)
    (hup : ¬ (step == ofString "..") = true) (hshort : ¬ stepLimit < encodedSize step) : IsDown step :=
  ⟨by simpa using hstay, by simpa using hup, Nat.le_of_not_lt hshort⟩

theorem IsDown.filter_cons (h : IsDown step) (rest : List Text) :
    (step :: rest).filter (· != ofString ".") = step :: rest.filter (· != ofString ".") :=
  filter_cons_of_pos (by simpa using h.ne_stay)

theorem walks_of_walkTo {beyond : Place → List Text → Except Trouble (Place × Option Entry)}
    (hbeyond : ∀ {here steps}, beyond here steps = .ok r →
      ∃ fewer, links = fewer + 1 ∧ Walks s follow fewer here steps r.1 ∧ r.2 = s.entry? r.1)
    (h : s.walkTo follow beyond here steps = .ok r) : Walks s follow links here steps r.1 ∧ r.2 = s.entry? r.1 := by
  fun_induction walkTo s follow beyond here steps with
  | case1 => cases h; exact ⟨.stop, rfl⟩
  | case2 here step rest age hdir hstay ih =>
    obtain rfl := eq_of_beq hstay
    exact ⟨.stay ⟨age, hdir⟩ (ih h).1, (ih h).2⟩
  | case3 here step rest age hdir _ hup ih =>
    obtain rfl := eq_of_beq hup
    exact ⟨.up ⟨age, hdir⟩ (ih h).1, (ih h).2⟩
  | case5 here step rest age hdir hstay hup hshort hentry hlast =>
    obtain rfl := isEmpty_iff.mp hlast
    cases h
    exact ⟨.vacant ⟨age, hdir⟩ (isDown_of hstay hup hshort) hentry, hentry.symm⟩
  | case7 here step rest age hdir hstay hup hshort target hentry hlast =>
    obtain ⟨hlast, hfollow⟩ := Bool.and_eq_true_iff.mp hlast
    obtain rfl := isEmpty_iff.mp hlast
    cases h
    exact ⟨.atLink ⟨age, hdir⟩ (isDown_of hstay hup hshort) hentry (by simpa using hfollow), hentry.symm⟩
  | case8 here step rest age hdir hstay hup hshort target hentry hgo =>
    have hfollow : rest ≠ [] ∨ follow = true := by
      cases rest with
      | nil => exact .inr (by simpa using hgo)
      | cons => exact .inl (cons_ne_nil _ _)
    obtain ⟨fewer, rfl, hwalks, hr⟩ := hbeyond h
    exact ⟨.link ⟨age, hdir⟩ (isDown_of hstay hup hshort) hentry hfollow hwalks, hr⟩
  | case9 here step rest age hdir hstay hup hshort e hlink hentry ih =>
    exact ⟨.enter ⟨age, hdir⟩ (isDown_of hstay hup hshort) hentry hlink (ih h).1, (ih h).2⟩
  | case4 | case6 | case10 | case11 => cases h

theorem walks_of_walk
    (h : s.walk follow links here steps = .ok r) : Walks s follow links here steps r.1 ∧ r.2 = s.entry? r.1 := by
  induction links generalizing here steps with
  | zero =>
    rw [walk] at h
    refine walks_of_walkTo (fun hloop => ?_) h
    cases hloop
  | succ links ih =>
    rw [walk] at h
    exact walks_of_walkTo (fun hbeyond => ⟨links, rfl, ih hbeyond⟩) h

theorem walk_eq (follow : Bool) (links : Nat) : s.walk follow links = s.walkTo follow (match links with
    | 0 => fun _ _ => .error .loop
    | fewer + 1 => s.walk follow fewer) := by
  cases links <;> rfl

theorem Walks.walk (h : Walks s follow links here steps p) : s.walk follow links here steps = .ok (p, s.entry? p) := by
  have hstay {step : Text} (h : IsDown step) : ¬ (step == ofString ".") = true := by simpa using h.ne_stay
  have hup {step : Text} (h : IsDown step) : ¬ (step == ofString "..") = true := by simpa using h.ne_up
  have hshort {step : Text} (h : IsDown step) : ¬ stepLimit < encodedSize step := Nat.not_lt.mpr h.short
  induction h with
  | stop => rw [walk_eq, walkTo]
  | stay hdir _ ih | up hdir _ ih =>
    obtain ⟨age, hdir⟩ := hdir
    rw [walk_eq, walkTo, hdir]
    rw [walk_eq] at ih
    exact ih
  | vacant hdir hdown | atLink hdir hdown =>
    obtain ⟨age, hdir⟩ := hdir
    rw [walk_eq]
    simp only [walkTo, *]
    rfl
  | @link links here p step target rest hdir hdown hentry hfollow _ ih =>
    obtain ⟨age, hdir⟩ := hdir
    have hgo : ¬ (rest.isEmpty && !follow) = true := by
      rw [Bool.and_eq_true, not_and_or]
      exact hfollow.imp (by simp) (by simp)
    rw [walk_eq]
    simp only [walkTo, *]
    exact ih
  | @enter links here p step rest e hdir hdown hentry hlink _ ih =>
    obtain ⟨age, hdir⟩ := hdir
    rw [walk_eq] at ih ⊢
    simp only [walkTo, hstay hdown, hup hdown, hshort hdown, hdir, hentry]
    cases e with
    | link target => exact absurd rfl (hlink target)
    | file | directory => exact ih

/-! ## Parts of a walk -/

theorem Walks.isDirectoryAt (h : Walks s follow links here steps p) (hne : steps ≠ []) : s.IsDirectoryAt here := by
  cases h with
  | stop => exact absurd rfl hne
  | stay hdir | up hdir | vacant hdir | atLink hdir | link hdir | enter hdir => exact hdir

theorem Walks.split (h : Walks s follow links here steps p) {xs ys : List Text} (hsteps : steps = xs ++ ys)
    (hne : ys ≠ []) : ∃ q, Walks s true links here xs q ∧ s.IsDirectoryAt q := by
  induction h generalizing xs with
  | stop => exact absurd (append_eq_nil_iff.mp hsteps.symm).2 hne
  | stay hdir _ ih | up hdir _ ih | enter hdir _ _ _ _ ih =>
    cases xs with
    | nil => exact ⟨_, .stop, hdir⟩
    | cons x xs =>
      obtain ⟨rfl, rfl⟩ := cons.inj hsteps
      obtain ⟨q, hq, hqdir⟩ := ih rfl
      exact ⟨q, by constructor <;> assumption, hqdir⟩
  | vacant hdir | atLink hdir =>
    cases xs with
    | nil => exact ⟨_, .stop, hdir⟩
    | cons x xs => exact absurd (append_eq_nil_iff.mp (cons.inj hsteps).2.symm).2 hne
  | link hdir hdown hentry hfollow hrest ih =>
    cases xs with
    | nil => exact ⟨_, .stop, hdir⟩
    | cons x xs =>
      obtain ⟨rfl, rfl⟩ := cons.inj hsteps
      obtain ⟨q, hq, hqdir⟩ := ih (append_assoc _ _ _).symm
      exact ⟨q, .link hdir hdown hentry (.inr rfl) hq, hqdir⟩

/-- What is found behind a link is found with the link at the end left alone, be it the link itself. -/
theorem Walks.unfollowed (h : Walks s true links here steps p) (hentry : s.entry? p ≠ none) :
    ∃ q, Walks s false links here steps q ∧ s.entry? q ≠ none := by
  induction h with
  | stop => exact ⟨_, .stop, hentry⟩
  | stay _ _ ih | up _ _ ih | enter _ _ _ _ _ ih =>
    obtain ⟨q, hq, hsome⟩ := ih hentry
    exact ⟨q, by constructor <;> assumption, hsome⟩
  | vacant _ _ hnone => exact absurd hnone hentry
  | atLink _ _ _ hfollow => cases hfollow
  | @link links here p step target rest hdir hdown hlink _ _ ih =>
    by_cases hrest : rest = []
    · subst hrest
      exact ⟨here ++ [step], .atLink hdir hdown hlink rfl, by simp [hlink]⟩
    · obtain ⟨q, hq, hsome⟩ := ih hentry
      exact ⟨q, .link hdir hdown hlink (.inl hrest) hq, hsome⟩

theorem Walks.drop_stays (h : Walks s true links here steps p) (xs ys : List Text) (hsteps : steps = xs ++ ys) :
    Walks s true links here (xs ++ ys.filter (· != ofString ".")) p := by
  induction h generalizing xs ys with
  | stop =>
    obtain ⟨rfl, rfl⟩ := append_eq_nil_iff.mp hsteps.symm
    exact .stop
  | @stay links here p rest hdir _ ih =>
    cases xs with
    | nil =>
      obtain rfl := hsteps
      exact ih [] rest rfl
    | cons x xs =>
      obtain ⟨rfl, rfl⟩ := cons.inj hsteps
      exact .stay hdir (ih xs ys rfl)
  | up hdir _ ih =>
    cases xs with
    | nil =>
      obtain rfl := hsteps
      exact .up hdir (ih [] _ rfl)
    | cons x xs =>
      obtain ⟨rfl, rfl⟩ := cons.inj hsteps
      exact .up hdir (ih xs ys rfl)
  | vacant hdir hdown hentry =>
    cases xs with
    | nil =>
      obtain rfl := hsteps
      rw [nil_append, hdown.filter_cons]
      exact .vacant hdir hdown hentry
    | cons x xs =>
      obtain ⟨rfl, hnil⟩ := cons.inj hsteps
      obtain ⟨rfl, rfl⟩ := append_eq_nil_iff.mp hnil.symm
      exact .vacant hdir hdown hentry
  | atLink hdir hdown hentry hfollow => cases hfollow
  | @link links here p step target rest hdir hdown hentry _ _ ih =>
    cases xs with
    | nil =>
      obtain rfl := hsteps
      rw [nil_append, hdown.filter_cons]
      exact .link hdir hdown hentry (.inr rfl) (ih _ _ rfl)
    | cons x xs =>
      obtain ⟨rfl, rfl⟩ := cons.inj hsteps
      have hrest := ih (walkSteps target ++ xs) ys (append_assoc _ _ _).symm
      rw [append_assoc] at hrest
      exact .link hdir hdown hentry (.inr rfl) hrest
  | enter hdir hdown hentry hlink _ ih =>
    cases xs with
    | nil =>
      obtain rfl := hsteps
      rw [nil_append, hdown.filter_cons]
      exact .enter hdir hdown hentry hlink (ih [] _ rfl)
    | cons x xs =>
      obtain ⟨rfl, rfl⟩ := cons.inj hsteps
      exact .enter hdir hdown hentry hlink (ih xs ys rfl)

/-! ## Links at the end -/

/-- A place with directories above it that is no link. -/
structure IsGrounded (s : Store) (here : Place) : Prop where
  above : ∀ q, q <+: here → q ≠ here → s.IsDirectoryAt q
  no_link : ∀ target, s.entry? here ≠ some (.link target)

theorem isDirectoryAt_root : s.IsDirectoryAt [] := ⟨_, rfl⟩

theorem IsDirectoryAt.no_link (h : s.IsDirectoryAt p) (target : Text) : s.entry? p ≠ some (.link target) := by
  obtain ⟨age, h⟩ := h
  simp [h]

theorem isGrounded_root : s.IsGrounded [] :=
  ⟨fun _ hq hne => absurd (prefix_nil.mp hq) hne, isDirectoryAt_root.no_link⟩

theorem IsGrounded.dropLast (h : s.IsGrounded here) : s.IsGrounded here.dropLast := by
  obtain rfl | ⟨front, step, rfl⟩ := eq_nil_or_concat here
  · exact h
  · rw [concat_eq_append] at h ⊢
    rw [dropLast_concat]
    have hbelow {q : Place} (hq : q <+: front) : s.IsDirectoryAt q := by
      refine h.above q (hq.trans (prefix_append _ _)) ?_
      rintro rfl
      have hlength := hq.length_le
      rw [length_append, length_singleton] at hlength
      omega
    exact ⟨fun q hq _ => hbelow hq, (hbelow (prefix_refl front)).no_link⟩

theorem IsGrounded.concat (h : s.IsGrounded here) (hdir : s.IsDirectoryAt here)
    (hlink : ∀ target, s.entry? (here ++ [step]) ≠ some (.link target)) : s.IsGrounded (here ++ [step]) := by
  refine ⟨fun q hq hne => ?_, hlink⟩
  obtain rfl | hq := prefix_concat_iff.mp hq
  · exact absurd rfl hne
  · by_cases hhere : q = here
    · exact hhere ▸ hdir
    · exact h.above q hq hhere

theorem Walks.isGrounded (h : Walks s true links here steps p) (hhere : s.IsGrounded here) : s.IsGrounded p := by
  induction h with
  | stop => exact hhere
  | stay _ _ ih => exact ih hhere
  | up _ _ ih => exact ih hhere.dropLast
  | vacant hdir _ hentry => exact hhere.concat hdir (by simp [hentry])
  | atLink _ _ _ hfollow => cases hfollow
  | @link links here p step target rest _ _ _ _ _ ih =>
    refine ih ?_
    rw [linkStart]
    split
    · exact isGrounded_root
    · exact hhere
  | enter hdir _ hentry hlink _ ih =>
    exact ih (hhere.concat hdir fun target => by rw [hentry]; exact fun h => hlink target (Option.some.inj h))

/-! ## Writing -/

theorem entry?_put (s : Store) (hp : p ≠ []) (e : Entry) (q : Place) :
    Store.entry? (s.put p e) q = if q = p then some e else s.entry? q := by
  rw [ entry?, entry?, put]
  by_cases hq : q = []
  · rw [hq, if_neg (Ne.symm hp)]
    rfl
  · have hempty : ¬ q.isEmpty = true := by simpa using hq
    rw [if_neg hempty, if_neg hempty, Fields.get?_insert]
    by_cases heq : q = p
    · simp [heq]
    · simp [heq, Ne.symm heq]

theorem Walks.put (h : Walks s true links here steps p)
    (hdir : ¬ s.IsDirectoryAt p) (hlink : ∀ target, s.entry? p ≠ some (.link target)) {e : Entry}
    (he : ∀ target, e ≠ .link target) : Walks (s.put p e) true links here steps p := by
  have hp : p ≠ [] := fun hp => hdir (hp ▸ isDirectoryAt_root)
  have hkept {q : Place} (hq : s.IsDirectoryAt q) : (s.put p e).IsDirectoryAt q := by
    have hne : q ≠ p := fun heq => hdir (heq ▸ hq)
    obtain ⟨age, hq⟩ := hq
    exact ⟨age, by rw [ entry?_put s hp, if_neg hne, hq]⟩
  induction h with
  | stop => exact .stop
  | stay hq _ ih => exact .stay (hkept hq) (ih hdir hlink hp hkept)
  | up hq _ ih => exact .up (hkept hq) (ih hdir hlink hp hkept)
  | vacant hq hdown _ =>
    exact .enter (hkept hq) hdown (by rw [ entry?_put s hp, if_pos rfl]) he .stop
  | atLink _ _ _ hfollow => cases hfollow
  | link hq hdown hentry hfollow _ ih =>
    refine .link (hkept hq) hdown ?_ hfollow (ih hdir hlink hp hkept)
    rw [ entry?_put s hp, if_neg (fun heq => hlink _ (heq ▸ hentry)), hentry]
  | @enter links here p step rest e' hq hdown hentry hlink' _ ih =>
    have hrest := ih hdir hlink hp hkept
    by_cases heq : here ++ [step] = p
    · exact .enter (hkept hq) hdown (by rw [ entry?_put s hp, if_pos heq]) he hrest
    · exact .enter (hkept hq) hdown (by rw [ entry?_put s hp, if_neg heq, hentry]) hlink' hrest

end ViewLint.Store
