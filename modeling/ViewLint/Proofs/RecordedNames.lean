import ViewLint.Proofs.Listings

/-!
# Names of places

A name leads where its tidy form leads, unless it asks for a directory. A place that has been resolved has no link on
the way, so its name below the working directory stands for the same place.

* **`Store.content?_tidy`**: a file is found under the tidy form of its name.
* **`Store.makeDirectories_above`**: the directories above a file are there.
* **`Store.resolve_below`**: a place that has been resolved, named from the working directory.
-/

namespace ViewLint

open List Text

variable {step : Text} {xs : List Text} {c : CodePoint}

/-! ## Tidy names -/

namespace Text

theorem mem_join_of_mem {sep piece : Text} {pieces : List Text} (hpiece : piece ∈ pieces)
    (hc : c ∈ piece) : c ∈ join sep pieces := by
  induction pieces with
  | nil => cases hpiece
  | cons x rest ih =>
    by_cases hrest : rest = []
    · subst hrest
      obtain rfl := mem_singleton.mp hpiece
      exact hc
    · rw [join_cons_of_ne_nil sep x hrest, mem_append, mem_append]
      obtain rfl | hpiece := mem_cons.mp hpiece
      · exact .inl (.inl hc)
      · exact .inr (ih hpiece)

end Text

namespace FileName

variable (name : Text)

theorem root_tidy : root (tidy name) = root name := root_ofSteps (root_cases name) fun _ => isStep_of_mem_steps

theorem walkSteps_tidy : Store.walkSteps (tidy name) = if steps name = [] then [ofString "."] else steps name :=
  walkSteps_ofSteps_root (root_cases name) fun _ => isStep_of_mem_steps

theorem isAbsolute_parent : isAbsolute (parent name) = isAbsolute name := by
  rw [isAbsolute_eq, parent, root_ofSteps (root_cases name) fun _ => isStep_of_mem_dropLast, isAbsolute_eq]

variable {name}

theorem mem_of_mem_step (hstep : step ∈ steps name) (hc : c ∈ step) : c ∈ name := by
  have hmem := (of_mem_steps hstep).2.2
  exact (mem_of_mem_splitWhere (splitOn_singleton (.char '/') name ▸ hmem) hc).1

/-- What a name put together from some of the steps of another one holds. -/
theorem mem_ofSteps (hxs : ∀ step ∈ xs, step ∈ steps name)
    (hc : c ∈ ofSteps (root name) xs) : c ∈ name ∨ c = .char '/' ∨ c = .char '.' := by
  rw [ofSteps] at hc
  split at hc
  · exact .inr (.inr (mem_singleton.mp hc))
  · obtain hc | hc := mem_append.mp hc
    · refine .inr (.inl ?_)
      rcases root_cases name with hroot | hroot | hroot <;> rw [hroot] at hc
      · cases hc
      · exact mem_singleton.mp hc
      · simpa [ofString] using hc
    · obtain hc | ⟨step, hstep, hc⟩ := mem_join hc
      · exact .inr (.inl (mem_singleton.mp hc))
      · exact .inl (mem_of_mem_step (hxs step hstep) hc)

theorem mem_splitOn_slash (hc : c ∈ name) : c = .char '/' ∨ ∃ piece ∈ splitOn "/" name, c ∈ piece := by
  have hjoin : Text.join "/" (Text.splitOn "/" name) = name := Text.join_splitOn (.char '/') name
  rw [← hjoin] at hc
  exact (mem_join hc).imp_left mem_singleton.mp

/-- What a name holds, its tidy form holds too, apart from slashes and points. -/
theorem mem_tidy (hc : c ∈ name) : c ∈ tidy name ∨ c = .char '/' ∨ c = .char '.' := by
  obtain hc | ⟨piece, hpiece, hc⟩ := mem_splitOn_slash hc
  · exact .inr (.inl hc)
  · by_cases hpoint : piece = "."
    · rw [hpoint] at hc
      exact .inr (.inr (mem_singleton.mp hc))
    · have hne : piece ≠ "" := fun hnil => by rw [hnil] at hc; cases hc
      have hstep : piece ∈ steps name :=
        mem_filter.mpr ⟨hpiece, by rw [Bool.and_eq_true, bne_iff_ne, bne_iff_ne]; exact ⟨hne, hpoint⟩⟩
      have hsome : steps name ≠ [] := ne_nil_of_mem hstep
      refine .inl ?_
      rw [tidy, ofSteps, if_neg (by simp [hsome])]
      exact mem_append_right _ (mem_join_of_mem hstep hc)

/-- A name put together from some of the steps of another one is not longer, unless it is a point. -/
theorem encodedSize_ofSteps_le (hxs : xs.Sublist (steps name)) :
    encodedSize (ofSteps (root name) xs) ≤ max 1 (encodedSize name) := by
  rw [ofSteps]
  split
  · exact Nat.le_max_left _ _
  · refine (Nat.le_max_right 1 _).trans' ?_
    obtain ⟨rest, hrest, hsteps⟩ : ∃ rest, name = root name ++ rest ∧ steps name = steps rest := by
      obtain hnil | hroot := root_cases name
      · exact ⟨name, by rw [hnil, nil_append], rfl⟩
      · have habs : isAbsolute name = true := by
          rw [isAbsolute_eq]
          simp [hroot.ne_nil]
        obtain ⟨-, rest, hrest⟩ := root_of_isAbsolute habs
        exact ⟨rest, hrest.symm, by rw [← hroot.steps rest, hrest]⟩
    have hsub : xs.Sublist (splitOn "/" rest) := (hsteps ▸ hxs).trans filter_sublist
    have hsize := encodedSize_join_le "/" hsub
    have hjoin : Text.join "/" (Text.splitOn "/" rest) = rest := Text.join_splitOn (.char '/') rest
    rw [hjoin] at hsize
    have hname := congrArg encodedSize hrest
    rw [encodedSize_append] at hname ⊢
    omega

end FileName

namespace Store

variable {opened : List Place} {inside : Place → Place → List Text → Except Place Place} {s : Store}
  {cwd p : Place} {name text : Text}

open FileName

theorem checkName_of_chars {s t : Text} (h : ∀ c ∈ t, c ∈ s ∨ c = .char '/' ∨ c = .char '.')
    (hs : checkName s = .ok ()) : checkName t = .ok () := by
  rw [checkName_eq_ok_iff] at hs ⊢
  constructor
  · intro c hc
    obtain hc | rfl | rfl := h c hc
    · exact hs.1 c hc
    · rfl
    · rfl
  · intro hc
    obtain hc | hc | hc := h _ hc
    · exact hs.2 hc
    · cases hc
    · cases hc

theorem checkName_ofSteps (h : ∀ step ∈ xs, checkName step = .ok ()) : checkName (ofSteps "" xs) = .ok () := by
  have hflat : checkName xs.flatten = .ok () := by
    simp only [checkName_eq_ok_iff] at h ⊢
    refine ⟨fun c hc => ?_, fun hc => ?_⟩ <;> obtain ⟨step, hstep, hc⟩ := mem_flatten.mp hc
    · exact (h step hstep).1 c hc
    · exact (h step hstep).2 hc
  refine checkName_of_chars (fun c hc => ?_) hflat
  rw [ofSteps] at hc
  split at hc
  · exact .inr (.inr (mem_singleton.mp hc))
  · obtain hc | ⟨step, hstep, hc⟩ := mem_join hc
    · exact .inr (.inl (mem_singleton.mp hc))
    · exact .inl (mem_flatten.mpr ⟨step, hstep, hc⟩)

theorem checkName_tidy_iff : checkName (tidy name) = .ok () ↔ checkName name = .ok () :=
  ⟨checkName_of_chars fun _ => mem_tidy, checkName_of_chars fun _ => mem_ofSteps fun _ => id⟩

theorem walkSteps_ne_nil (h : name ≠ []) : walkSteps name ≠ [] := by
  intro hnil
  rw [walkSteps] at hnil
  split at hnil
  · rw [concat_eq_append] at hnil
    exact concat_ne_nil _ _ hnil
  · next hend =>
    -- All pieces are empty, so that the name is made of slashes
    have hslash : ∀ c ∈ name, c = .char '/' := by
      intro c hc
      obtain hc | ⟨piece, hpiece, hc⟩ := mem_splitOn_slash hc
      · exact hc
      · have hempty := filter_eq_nil_iff.mp hnil piece hpiece
        have hpiece : piece = [] := by simpa using hempty
        rw [hpiece] at hc
        cases hc
    obtain ⟨front, c, rfl⟩ := (eq_nil_or_concat name).resolve_left h
    rw [concat_eq_append] at hslash hend
    obtain rfl := hslash c (by simp)
    exact hend (isSuffixOf_iff_suffix.mpr (suffix_append _ _))

theorem walks_steps {age : Binary64} (h : s.locate cwd true name = .ok (p, some (.file text age))) :
    steps name ≠ [] ∧ Walks s true linkLimit (if isAbsolute name then [] else cwd) (steps name) p := by
  obtain ⟨hne, -, hwalks, hentry⟩ := of_locate_eq_ok h
  have hsteps := hwalks.drop_stays [] (walkSteps name) rfl
  rw [nil_append, filter_walkSteps] at hsteps
  refine ⟨fun hnil => ?_, hsteps⟩
  rw [hnil] at hsteps
  cases hsteps
  obtain ⟨age', hdir⟩ := hwalks.isDirectoryAt (walkSteps_ne_nil hne)
  cases hentry.trans hdir

theorem content?_tidy (h : s.content? cwd name = some text) : s.content? cwd (tidy name) = some text := by
  obtain ⟨hname, p, age, hlocate⟩ := content?_eq_some_iff.mp h
  obtain ⟨hsome, hwalks⟩ := walks_steps hlocate
  obtain ⟨hne, hsize, -, hentry⟩ := of_locate_eq_ok hlocate
  have hshort : encodedSize (tidy name) ≤ max 1 (encodedSize name) :=
    encodedSize_ofSteps_le (Sublist.refl _)
  have hlimit : 1 ≤ nameLimit := by decide
  have htidy : tidy name ≠ [] := ofSteps_ne_nil fun _ => isStep_of_mem_steps
  refine content?_eq_some_iff.mpr ⟨checkName_tidy_iff.mpr hname, p, age, ?_⟩
  rw [locate, if_neg (by simpa using htidy), if_neg (by omega), isAbsolute_eq, root_tidy,
    ← isAbsolute_eq, walkSteps_tidy, if_neg hsome,
    hwalks.walk, ← hentry]

theorem exists_read_eq_error (hname : checkName name = .ok ()) (h : s.content? cwd name = none) :
    ∃ e, s.read cwd name = .error (.storage e) := by
  rw [content?, hname, find?] at h
  rw [read, hname]
  rcases hlocate : s.locate cwd true name with t | ⟨p, _ | (⟨text, age⟩ | ⟨age⟩ | ⟨target⟩)⟩
  all_goals first | exact ⟨_, rfl⟩ | rw [hlocate] at h; cases h

theorem makeDirectories_above (h : s.content? cwd name = some text) :
    s.makeDirectories cwd (parent name) = .ok s := by
  obtain ⟨hname, p, age, hlocate⟩ := content?_eq_some_iff.mp h
  obtain ⟨hsome, hwalks⟩ := walks_steps hlocate
  obtain ⟨q, hq, ageq, hdir⟩ := hwalks.split (dropLast_append_getLast hsome).symm (cons_ne_nil _ _)
  have hfront : ∀ step ∈ (steps name).dropLast, step ∈ steps name := fun _ hstep => dropLast_subset _ hstep
  have hshort : encodedSize (parent name) ≤ max 1 (encodedSize name) :=
    encodedSize_ofSteps_le (dropLast_sublist _)
  have hsize := (of_locate_eq_ok hlocate).2.1
  have hlimit : 1 ≤ nameLimit := by decide
  have hne : parent name ≠ [] := ofSteps_ne_nil fun _ => isStep_of_mem_dropLast
  have hup : Walks s true linkLimit (if isAbsolute name then [] else cwd) (walkSteps (parent name)) q := by
    rw [parent, walkSteps_ofSteps_root (root_cases name) fun _ => isStep_of_mem_dropLast]
    by_cases hnil : (steps name).dropLast = []
    · rw [hnil] at hq
      rw [if_pos hnil]
      cases hq
      exact .stay ⟨ageq, hdir⟩ .stop
    · rwa [if_neg hnil]
  refine makeDirectories_of_isDirectory (checkName_of_chars (fun _ => mem_ofSteps hfront) hname) ?_
  rw [isDirectory, find?, locate, if_neg (by simpa using hne), if_neg (by omega), isAbsolute_parent, hup.walk, hdir]

/-! ## Places that have been resolved -/

/-- A place with no link on the way, and with possible names below a directory of some depth. -/
structure IsResolved (s : Store) (depth : Nat) (p : Place) : Prop where
  no_link : ∀ q, q <+: p → ∀ target, s.entry? q ≠ some (.link target)
  steps : ∀ step ∈ p.drop depth, IsStep step ∧ step ≠ ".." ∧ checkName step = .ok ()

namespace IsResolved

variable {depth : Nat} {here : Place}

theorem root : s.IsResolved depth [] := by
  constructor
  · intro q hq
    rw [prefix_nil.mp hq]
    exact isDirectoryAt_root.no_link
  · rw [drop_nil]
    exact forall_mem_nil _

theorem dropLast (h : s.IsResolved depth here) : s.IsResolved depth here.dropLast := by
  constructor
  · exact fun q hq => h.no_link q (hq.trans ( dropLast_prefix here))
  · exact fun step hstep => h.steps step (((dropLast_sublist here).drop depth).subset hstep)

theorem concat (h : s.IsResolved depth here) (hstep : IsStep step) (hup : step ≠ "..")
    (hname : checkName step = .ok ()) (hlink : ∀ target, s.entry? (here ++ [step]) ≠ some (.link target)) :
    s.IsResolved depth (here ++ [step]) := by
  constructor
  · intro q hq
    obtain rfl | hq := prefix_concat_iff.mp hq
    · exact hlink
    · exact h.no_link q hq
  · intro t ht
    rw [drop_append] at ht
    obtain ht | ht := mem_append.mp ht
    · exact h.steps t ht
    · obtain rfl := mem_singleton.mp (mem_of_mem_drop ht)
      exact ⟨hstep, hup, hname⟩

end IsResolved

theorem IsGrounded.isResolved (h : s.IsGrounded cwd) : s.IsResolved cwd.length cwd := by
  constructor
  · intro q hq
    by_cases heq : q = cwd
    · exact heq ▸ h.no_link
    · exact (h.above q hq heq).no_link
  · rw [drop_length]
    exact forall_mem_nil _

/-- Steps that a name may have. -/
def ArePossible (steps : List Text) : Prop := ∀ step ∈ steps, IsStep step ∧ checkName step = .ok ()

theorem arePossible_steps (h : checkName name = .ok ()) : ArePossible (steps name) :=
  fun _ hstep => ⟨isStep_of_mem_steps hstep, checkName_of_chars (fun _ hc => .inl (mem_of_mem_step hstep hc)) h⟩

/-- A store in which links go to possible names. -/
def HasPossibleLinks (s : Store) : Prop :=
  ∀ p target, s.entry? p = some (.link target) → checkName target = .ok ()

theorem isResolved_of_resolveWith {depth : Nat} (hlinks : s.HasPossibleLinks)
    (hinside : ∀ {link here steps p}, s.IsResolved depth here → ArePossible steps →
      inside link here steps = .ok p → s.IsResolved depth p)
    {here : Place} {steps : List Text} (hhere : s.IsResolved depth here) (hsteps : ArePossible steps)
    (h : s.resolveWith inside opened here steps = .ok p) : s.IsResolved depth p := by
  induction steps generalizing here with
  | nil =>
    cases h
    exact hhere
  | cons step rest ih =>
    obtain ⟨hstep, hrest⟩ := forall_mem_cons.mp hsteps
    rw [resolveWith, if_neg (by simpa using hstep.1.ne_stay)] at h
    split at h
    · exact ih hhere.dropLast hrest h
    · next hup =>
      dsimp only at h
      split at h
      · next target htarget =>
        split at h
        · cases h
        · split at h
          · next q hq =>
            have hstart : s.IsResolved depth (if isAbsolute target then [] else here) := by
              split
              · exact .root
              · exact hhere
            exact ih (hinside hstart (arePossible_steps (hlinks _ _ htarget)) hq) hrest h
          · cases h
      · next hlink => exact ih (hhere.concat hstep.1 (by simpa using hup) hstep.2 fun target => hlink target) hrest h

theorem isResolved_of_resolveFrom {depth links : Nat} (hlinks : s.HasPossibleLinks)
    {here : Place} {steps : List Text} (hhere : s.IsResolved depth here) (hsteps : ArePossible steps)
    (h : s.resolveFrom links opened here steps = .ok p) : s.IsResolved depth p := by
  induction links generalizing opened here steps p with
  | zero =>
    refine isResolved_of_resolveWith hlinks ?_ hhere hsteps h
    intro _ _ _ _ _ _ hloop
    cases hloop
  | succ links ih => exact isResolved_of_resolveWith hlinks ih hhere hsteps h

theorem resolveWith_append {here : Place} {steps : List Text} (hsteps : ∀ step ∈ steps, IsStep step ∧ step ≠ "..")
    (hlink : ∀ q, q <+: here ++ steps → ∀ target, s.entry? q ≠ some (.link target)) :
    s.resolveWith inside opened here steps = .ok (here ++ steps) := by
  induction steps generalizing here with
  | nil => rw [resolveWith, append_nil]
  | cons step rest ih =>
    obtain ⟨hstep, hrest⟩ := forall_mem_cons.mp hsteps
    have hassoc : here ++ step :: rest = here ++ [step] ++ rest := by simp
    rw [hassoc] at hlink ⊢
    have hnext := hlink (here ++ [step]) (prefix_append _ _)
    rw [resolveWith, if_neg (by simpa using hstep.1.ne_stay), if_neg (by simpa using hstep.2)]
    dsimp only
    split
    · next target htarget => exact absurd htarget (hnext target)
    · exact ih hrest hlink

theorem of_resolve_eq_ok (h : s.resolve cwd name = .ok p) : checkName name = .ok () ∧
      s.resolveFrom s.entries.length [] (if isAbsolute name then [] else cwd) (FileName.steps name) = .ok p := by
  rw [resolve] at h
  cases hname : checkName name with
  | error f => rw [hname] at h; cases h
  | ok u =>
    rw [hname] at h
    cases hfrom : s.resolveFrom s.entries.length [] (if isAbsolute name then [] else cwd) (FileName.steps name) with
    | error q =>
      simp only [bind, Except.bind, hfrom] at h
      cases h
    | ok q =>
      simp only [bind, Except.bind, hfrom] at h
      cases h
      exact ⟨rfl, rfl⟩

theorem resolve_below (hground : s.IsGrounded cwd) (hlinks : s.HasPossibleLinks) {rest : Place}
    (h : s.resolve cwd name = .ok (cwd ++ rest)) : s.resolve cwd (ofSteps "" rest) = .ok (cwd ++ rest) := by
  obtain ⟨hname, hfrom⟩ := of_resolve_eq_ok h
  have hstart : s.IsResolved cwd.length (if isAbsolute name then [] else cwd) := by
    split
    · exact .root
    · exact hground.isResolved
  have hplace := isResolved_of_resolveFrom hlinks hstart (arePossible_steps hname) hfrom
  have hrest := hplace.steps
  rw [drop_left] at hrest
  have hsteps : ∀ step ∈ rest, IsStep step := fun step hstep => (hrest step hstep).1
  have hcheck := checkName_ofSteps fun step hstep => (hrest step hstep).2.2
  have habs : isAbsolute (ofSteps "" rest) = false := by
    rw [isAbsolute_eq, @root_ofSteps "" rest (.inl rfl) hsteps]
    rfl
  have hwhole : s.resolveFrom s.entries.length [] cwd rest = .ok (cwd ++ rest) := by
    cases s.entries.length <;>
      exact resolveWith_append (fun step hstep => ⟨(hrest step hstep).1, (hrest step hstep).2.1⟩) hplace.no_link
  rw [resolve, hcheck, habs, @steps_ofSteps "" rest (.inl rfl) hsteps]
  simp only [bind, Except.bind, Bool.false_eq_true, if_false, hwhole]
  rfl

end Store

end ViewLint
