import ViewLint.Proofs.Files
import ViewLint.Store.Glob

/-!
# Names in a directory

A file has neighbours: the names in the directory that it lies in. They are listed, picked out by a wildcard, and
looked up one by one.

* **`Store.locate_unlisted`**: a neighbour that is not listed leads to nothing.
* **`Wildcard.accepts_star`**: what a pattern with a single star accepts.
-/

namespace ViewLint

open List Text FileName

variable {n front : Text}

/-! ## Neighbours of a name -/

/-- The room that a name takes goes by its last piece. -/
theorem Text.encodedSize_join_concat (sep m n : Text) (pieces : List Text) :
    encodedSize (join sep (pieces ++ [m])) + encodedSize n =
      encodedSize (join sep (pieces ++ [n])) + encodedSize m := by
  induction pieces with
  | nil => exact Nat.add_comm _ _
  | cons piece rest ih =>
    have hne (t : Text) : rest ++ [t] ≠ [] := concat_ne_nil _ _
    rw [cons_append, cons_append, join_cons_of_ne_nil _ _ (hne m), join_cons_of_ne_nil _ _ (hne n),
      encodedSize_append, encodedSize_append (piece ++ sep)]
    omega

namespace FileName

variable {name step : Text}

/-- A text that is a step of a name. -/
structure IsStep (step : Text) : Prop where
  no_slash : .char '/' ∉ step
  ne_nil : step ≠ []
  ne_stay : step ≠ "."

theorem isStep_of_mem_steps (h : step ∈ steps name) : IsStep step := by
  refine ⟨(of_mem_steps h).1, (of_mem_steps h).2.1, ?_⟩
  rintro rfl
  exact absurd (mem_filter.mp h).2 (by decide)

theorem isStep_of_mem_dropLast (h : step ∈ (steps name).dropLast) : IsStep step :=
  isStep_of_mem_steps (dropLast_subset _ h)

theorem steps_of_isStep (h : IsStep step) : steps step = [step] := by
  have hsplit : splitOn "/" step = [step] := splitOn_of_not_mem h.no_slash
  rw [steps, hsplit, filter_cons_of_pos, filter_nil]
  rw [Bool.and_eq_true, bne_iff_ne, bne_iff_ne]
  exact ⟨h.ne_nil, h.ne_stay⟩

theorem root_cases (name : Text) : root name = [] ∨ IsRoot (root name) := by
  rw [root]
  split
  · exact .inr (.inl rfl)
  · split
    · exact .inr (.inr rfl)
    · split
      · exact .inr (.inl rfl)
      · exact .inl rfl

theorem isAbsolute_eq (name : Text) : isAbsolute name = !(root name).isEmpty := by
  rw [isAbsolute, root]
  split
  · rename_i h
    obtain ⟨rest, rfl⟩ := isPrefixOf_iff_prefix.mp h
    rfl
  · split
    · rename_i h
      obtain ⟨rest, rfl⟩ := isPrefixOf_iff_prefix.mp h
      rfl
    · split
      · rename_i h
        exact h
      · rename_i h
        exact Bool.eq_false_iff.mpr h

section

variable {start : Text} {xs : List Text}

theorem head_join_ne {c : CodePoint} {r : Text} (hxs : ∀ step ∈ xs, IsStep step) (h : Text.join "/" xs = c :: r) :
    c ≠ .char '/' := by
  cases xs with
  | nil => cases h
  | cons x rest =>
    have hx := hxs x mem_cons_self
    obtain ⟨d, t, rfl⟩ := exists_cons_of_ne_nil hx.ne_nil
    have hd : d = c := by cases rest <;> exact (cons.inj h).1
    rintro rfl
    exact hx.no_slash (hd ▸ mem_cons_self)

theorem join_ne_nil (hxs : ∀ step ∈ xs, IsStep step) (hne : xs ≠ []) : Text.join "/" xs ≠ [] := by
  obtain ⟨x, rest, rfl⟩ := exists_cons_of_ne_nil hne
  have hx : x ≠ [] := (hxs x mem_cons_self).ne_nil
  cases rest with
  | nil => exact hx
  | cons =>
    rw [join_cons_of_ne_nil _ _ (cons_ne_nil _ _), append_assoc]
    exact append_ne_nil_of_left_ne_nil hx _

theorem walkSteps_join (hxs : ∀ step ∈ xs, IsStep step) (hne : xs ≠ []) : Store.walkSteps (Text.join "/" xs) = xs := by
  have hslash : Store.walkSteps (ofSteps "/" xs) = xs :=
    (walkSteps_ofSteps (.inl rfl) fun step h => ⟨(hxs step h).no_slash, (hxs step h).ne_nil⟩).trans (if_neg hne)
  have hsplit (t : Text) : splitOn "/" (ofString "/" ++ t) = [[]] ++ splitOn "/" t :=
    splitOn_append_stop (.char '/') [] t
  have hend : Text.endsWith (Text.ofString "/" ++ Text.join "/" xs) "/" = Text.endsWith (Text.join "/" xs) "/" := by
    obtain ⟨front, c, hc⟩ := (eq_nil_or_concat _).resolve_left (join_ne_nil hxs hne)
    rw [hc, concat_eq_append, ← append_assoc, Bool.eq_iff_iff, endsWith, endsWith,
      isSuffixOf_iff_suffix, isSuffixOf_iff_suffix]
    exact ⟨fun ⟨t, ht⟩ => ⟨front, by rw [(append_inj_right' ht rfl : ofString "/" = [c])]⟩,
      fun ⟨t, ht⟩ => ⟨ofString "/" ++ front, by rw [(append_inj_right' ht rfl : ofString "/" = [c])]⟩⟩
  rw [IsRoot.ofSteps (.inl rfl), Store.walkSteps, hend, hsplit] at hslash
  exact hslash

/-- The steps of a name that is put together from steps. -/
theorem walkSteps_ofSteps_root (hstart : start = [] ∨ IsRoot start) (hxs : ∀ step ∈ xs, IsStep step) :
    Store.walkSteps (ofSteps start xs) = if xs = [] then [ofString "."] else xs := by
  obtain rfl | hstart := hstart
  · by_cases hne : xs = []
    · subst hne
      decide
    · rw [ofSteps, if_neg (by simpa using hne), if_neg hne, nil_append, walkSteps_join hxs hne]
  · exact walkSteps_ofSteps hstart fun step h => ⟨(hxs step h).no_slash, (hxs step h).ne_nil⟩

theorem steps_ofSteps (hstart : start = [] ∨ IsRoot start) (hxs : ∀ step ∈ xs, IsStep step) :
    steps (ofSteps start xs) = xs := by
  rw [← Store.filter_walkSteps, walkSteps_ofSteps_root hstart hxs]
  split
  · rename_i hnil
    rw [hnil]
    decide
  · exact filter_eq_self.mpr fun step h => by simpa using (hxs step h).ne_stay

theorem ofSteps_ne_nil (hxs : ∀ step ∈ xs, IsStep step) : ofSteps start xs ≠ [] := by
  rw [ofSteps]
  split
  · decide
  · rename_i h
    rw [Bool.and_eq_true, not_and_or, List.isEmpty_iff, List.isEmpty_iff] at h
    rw [ne_eq, append_eq_nil_iff, not_and_or]
    exact h.imp id (join_ne_nil hxs)

theorem root_ofSteps (hstart : start = [] ∨ IsRoot start) (hxs : ∀ step ∈ xs, IsStep step) :
    root (ofSteps start xs) = start := by
  have hhead : Text.join "/" xs = [] ∨ ∃ c r, Text.join "/" xs = c :: r ∧ c ≠ .char '/' := by
    cases h : Text.join "/" xs with
    | nil => exact .inl rfl
    | cons c r => exact .inr ⟨c, r, rfl, head_join_ne hxs h⟩
  obtain rfl | hstart := hstart
  · rw [ofSteps]
    split
    · decide
    · obtain h | ⟨c, r, h, hc⟩ := hhead
      · rw [h]
        decide
      · rw [h]
        simp [root, startsWith, ofString, Ne.symm hc]
  · rw [hstart.ofSteps]
    obtain h | ⟨c, r, h, hc⟩ := hhead
    · rw [h]
      rcases hstart with rfl | rfl <;> decide
    · rw [h]
      rcases hstart with rfl | rfl <;> simp [root, startsWith, ofString, Ne.symm hc]

end

theorem child_parent (hn : IsStep n) :
    child (parent name) n = ofSteps (root name) ((steps name).dropLast ++ [n]) := by
  rw [child, parent, root_ofSteps (root_cases name) fun _ => isStep_of_mem_dropLast,
    steps_ofSteps (root_cases name) fun _ => isStep_of_mem_dropLast, steps_of_isStep hn]

theorem isStep_of_mem_neighbour (hn : IsStep n) (h : step ∈ (steps name).dropLast ++ [n]) : IsStep step := by
  obtain h | h := mem_append.mp h
  · exact isStep_of_mem_dropLast h
  · exact mem_singleton.mp h ▸ hn

theorem last_child_parent (hn : IsStep n) : last (child (parent name) n) = n := by
  rw [child_parent hn, last, steps_ofSteps (root_cases name) fun _ => isStep_of_mem_neighbour hn, getLast?_concat]
  rfl

end FileName

/-! ## What is listed -/

namespace Store

variable {s : Store} {cwd here q : Place} {p m : Text}

theorem mem_list {e : Entry} (h : s.entry? (here ++ [n]) = some e) : n ∈ s.list here := by
  have hempty : ¬ (here ++ [n]).isEmpty = true := by simp
  rw [ entry?, if_neg hempty] at h
  rw [list, sort, mem_mergeSort, mem_filterMap]
  exact ⟨_, Fields.mem_of_get?_eq_some h, by simp⟩

/-- A walk to a directory goes on to a place in it where nothing stands. -/
theorem Walks.concat_vacant {links : Nat} {steps : List Text}
    (h : Walks s true links here steps q) (hdir : s.IsDirectoryAt q) (hm : IsDown m)
    (hentry : s.entry? (q ++ [m]) = none) : Walks s true links here (steps ++ [m]) (q ++ [m]) := by
  induction h with
  | stop => exact .vacant hdir hm hentry
  | stay hhere _ ih => exact .stay hhere (ih hdir hentry)
  | up hhere _ ih => exact .up hhere (ih hdir hentry)
  | vacant _ _ hnone =>
    obtain ⟨age, hdir⟩ := hdir
    cases hnone.symm.trans hdir
  | atLink _ _ _ hfollow => cases hfollow
  | link hhere hdown hlink _ _ ih =>
    have hrest := ih hdir hentry
    rw [append_assoc] at hrest
    exact .link hhere hdown hlink (.inr rfl) hrest
  | enter hhere hdown hsome hlink _ ih => exact .enter hhere hdown hsome hlink (ih hdir hentry)

/-- The last step of a name is that of the place, unless a link is followed there. -/
theorem Walks.last_step {follow : Bool} {links : Nat} {steps xs : List Text} (h : Walks s follow links here steps q)
    (hsteps : steps = xs ++ [n]) (hstay : n ≠ ".") (hup : n ≠ "..") :
    IsDown n ∧ (follow = false → q.getLast? = some n) := by
  induction h generalizing xs with
  | stop => cases xs <;> cases hsteps
  | stay _ _ ih | up _ _ ih =>
    cases xs with
    | nil => cases hsteps; contradiction
    | cons => exact ih (cons.inj hsteps).2
  | vacant _ hdown _ | atLink _ hdown _ _ =>
    cases xs with
    | nil =>
      obtain rfl := (cons.inj hsteps).1
      exact ⟨hdown, fun _ => getLast?_concat⟩
    | cons => exact absurd (cons.inj hsteps).2.symm (concat_ne_nil _ _)
  | @link _ _ _ _ target _ _ hdown _ hfollow _ ih =>
    cases xs with
    | nil =>
      obtain ⟨rfl, rfl⟩ := cons.inj hsteps
      exact ⟨hdown, fun hf => absurd (hfollow.resolve_left fun h => h rfl) (by simp [hf])⟩
    | cons x xs =>
      have hrest : walkSteps target ++ _ = walkSteps target ++ (xs ++ [n]) :=
        congrArg (walkSteps target ++ ·) (cons.inj hsteps).2
      exact ih (hrest.trans (append_assoc _ _ _).symm)
  | enter _ hdown _ _ hrest ih =>
    cases xs with
    | nil =>
      obtain ⟨rfl, rfl⟩ := cons.inj hsteps
      cases hrest
      exact ⟨hdown, fun _ => getLast?_concat⟩
    | cons => exact ih (cons.inj hsteps).2

theorem exists_of_mem_namesIn (h : n ∈ s.namesIn cwd (parent p) false) :
    ∃ q age, s.locate cwd true (parent p) = .ok (q, some (.directory age)) ∧
      s.namesIn cwd (parent p) false = s.list q := by
  have hne : ¬ (parent p).isEmpty = true := by
    rw [List.isEmpty_iff]
    exact ofSteps_ne_nil fun _ => isStep_of_mem_dropLast
  rw [namesIn, if_neg hne] at h ⊢
  split at h
  · rename_i q age hlocate
    refine ⟨q, age, hlocate, ?_⟩
    simp
  · cases h

theorem locate_unlisted {r : Place × Option Entry} (hn : IsStep n) (hup : n ≠ "..")
    (hfound : s.locate cwd true (child (parent p) n) = .ok r)
    (hlisted : n ∈ s.namesIn cwd (parent p) false) (hm : IsStep m) (hup' : m ≠ "..")
    (hsize : encodedSize m ≤ encodedSize n) (hunlisted : m ∉ s.namesIn cwd (parent p) false) :
    ∃ q, s.locate cwd true (child (parent p) m) = .ok (q, none) := by
  have hroot := root_cases p
  have hfront : ∀ step ∈ (steps p).dropLast, IsStep step := fun _ => isStep_of_mem_dropLast
  have hsteps {t : Text} (ht : IsStep t) : walkSteps (ofSteps (root p) ((steps p).dropLast ++ [t])) =
        (steps p).dropLast ++ [t] := by
    rw [walkSteps_ofSteps_root hroot fun _ => isStep_of_mem_neighbour ht, if_neg (concat_ne_nil _ _)]
  have habs {xs : List Text} (hxs : ∀ step ∈ xs, IsStep step) : isAbsolute (ofSteps (root p) xs) = isAbsolute p := by
    rw [isAbsolute_eq, root_ofSteps hroot hxs, isAbsolute_eq]
  -- the directory
  obtain ⟨q, age, hdir, hlist⟩ := exists_of_mem_namesIn hlisted
  obtain ⟨-, -, hwalk, hq⟩ := of_locate_eq_ok hdir
  rw [parent, habs hfront, walkSteps_ofSteps_root hroot hfront] at hwalk
  have hwalk : Walks s true linkLimit (if isAbsolute p then [] else cwd) (steps p).dropLast q := by
    by_cases hnil : (steps p).dropLast = []
    · rw [if_pos hnil] at hwalk
      rw [hnil]
      exact hwalk.drop_stays [] _ rfl
    · rwa [if_neg hnil] at hwalk
  -- the name that is found
  rw [child_parent hn] at hfound
  obtain ⟨-, hlong, hwalkn, -⟩ := of_locate_eq_ok hfound
  rw [hsteps hn] at hwalkn
  have hshort := (hwalkn.last_step rfl hn.ne_stay hup).1.short
  have hvacant : s.entry? (q ++ [m]) = none := by
    cases hentry : s.entry? (q ++ [m]) with
    | none => rfl
    | some e => exact absurd (mem_list hentry) (hlist ▸ hunlisted)
  have hwalkm := hwalk.concat_vacant ⟨age, hq.symm⟩ ⟨hm.ne_stay, hup', hsize.trans hshort⟩ hvacant
  refine ⟨q ++ [m], ?_⟩
  rw [child_parent hm, locate, if_neg, if_neg, habs fun _ => isStep_of_mem_neighbour hm, hsteps hm,
    hwalkm.walk, hvacant]
  · rw [ofSteps, if_neg (by simp), encodedSize_append] at hlong ⊢
    have hroom := encodedSize_join_concat "/" m n (steps p).dropLast
    omega
  · rw [List.isEmpty_iff]
    exact ofSteps_ne_nil fun _ => isStep_of_mem_neighbour hm

end Store

/-! ## Patterns with a star -/

namespace Wildcard

theorem piecesFrom_append (hfront : isWild front = false) (fuel : Nat) (rest : Text) :
    piecesFrom (front.length + fuel) (front ++ rest) = front.map .char ++ piecesFrom fuel rest := by
  induction front with
  | nil => rw [length_nil, Nat.zero_add, nil_append, map_nil, nil_append]
  | cons c front ih =>
    rw [isWild, any_cons, Bool.or_eq_false_iff] at hfront
    obtain ⟨hc, hfront⟩ := hfront
    simp only [Bool.or_eq_false_iff, beq_eq_false_iff_ne, ne_eq] at hc
    have hlength : (c :: front).length + fuel = front.length + fuel + 1 := by rw [length_cons]; omega
    rw [hlength, cons_append, piecesFrom, ih hfront]
    · rfl
    · exact hc.1.1
    · exact hc.1.2
    · exact hc.2

theorem pieces_append (hfront : isWild front = false) (rest : Text) :
    pieces (front ++ rest) = front.map .char ++ pieces rest := by
  rw [pieces, length_append, piecesFrom_append hfront, pieces]

theorem matchesAll_append (front : Text) (ps : List Wildcard) (s : Text) :
    matchesAll (front.map .char ++ ps) s = true ↔ ∃ rest, s = front ++ rest ∧ matchesAll ps rest = true := by
  induction front generalizing s with
  | nil => simp
  | cons c front ih =>
    cases s with
    | nil => simp [matchesAll]
    | cons d s =>
      simp only [map_cons, cons_append, matchesAll, fits, Bool.and_eq_true, beq_iff_eq, ih, cons.injEq]
      constructor
      · rintro ⟨rfl, rest, rfl, h⟩
        exact ⟨rest, ⟨rfl, rfl⟩, h⟩
      · rintro ⟨rest, ⟨rfl, rfl⟩, h⟩
        exact ⟨rfl, rest, rfl, h⟩

theorem anyEnd_eq_true_iff {p : Text → Bool} {s : Text} :
    anyEnd p s = true ↔ ∃ front ending, s = front ++ ending ∧ p ending = true := by
  induction s with
  | nil =>
    rw [anyEnd]
    simp
  | cons c r ih =>
    rw [anyEnd, Bool.or_eq_true, ih]
    constructor
    · rintro (h | ⟨front, ending, rfl, h⟩)
      · exact ⟨[], c :: r, rfl, h⟩
      · exact ⟨c :: front, ending, rfl, h⟩
    · rintro ⟨front, ending, heq, h⟩
      cases front with
      | nil => exact .inl (heq ▸ h)
      | cons d front => exact .inr ⟨front, ending, (cons.inj heq).2, h⟩

theorem accepts_plain {back name : Text} (hback : isWild back = false) : accepts back name = true ↔ name = back := by
  have hpieces := pieces_append hback []
  have happend := matchesAll_append back [] name
  rw [append_nil, pieces, pieces, length_nil, piecesFrom] at hpieces
  rw [append_nil] at happend hpieces
  rw [accepts, pieces, hpieces]
  simpa [matchesAll] using happend

theorem accepts_star_append (hfront : isWild front = false) (rest name : Text) :
    accepts (front ++ .char '*' :: rest) name = true
      ↔ ∃ inner ending, name = front ++ inner ++ ending ∧ accepts rest ending = true := by
  have hstar : pieces (.char '*' :: rest) = .star :: pieces rest := by rw [pieces, length_cons, piecesFrom, pieces]
  rw [accepts, pieces_append hfront, hstar, matchesAll_append]
  simp only [matchesAll, anyEnd_eq_true_iff]
  constructor
  · rintro ⟨_, rfl, inner, ending, rfl, h⟩
    exact ⟨inner, ending, (append_assoc _ _ _).symm, h⟩
  · rintro ⟨inner, ending, rfl, h⟩
    exact ⟨inner ++ ending, append_assoc _ _ _, inner, ending, rfl, h⟩

theorem accepts_star {back name : Text} (hfront : isWild front = false) (hback : isWild back = false) :
    accepts (front ++ .char '*' :: back) name = true ↔ ∃ inner, name = front ++ inner ++ back := by
  simp only [accepts_star_append hfront, accepts_plain hback, exists_eq_right]

end Wildcard

end ViewLint
