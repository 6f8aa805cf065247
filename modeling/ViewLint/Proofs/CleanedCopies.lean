import ViewLint.Proofs.Removals

/-!
# Copies of scripts that are cleaned up

Before scripts are checked for the first time, the directory for their copies is cleaned up. What goes is told by the
ending of its name, not by the name that a copy has.

* **`ScriptCheck.Config.removes_only_copies_iff`**: what is removed, and when these are copies only.
* `ScriptCheck.Config.not_always_copies`: a tool of the user that is removed.
-/

namespace ViewLint

open List Session FileName

/-! ## Patterns for one directory -/

variable {d n step name : Text} {p : Place}

namespace FileName

theorem exists_join (hd : d ≠ []) : ∃ front, (∀ c ∈ front, c ∈ d) ∧
    ∀ n, .char '/' ∉ n → join d n = front ++ .char '/' :: n := by
  have hrelative {n : Text} (hn : .char '/' ∉ n) : ¬ (isAbsolute n || d == "") = true := by
    rw [Bool.or_eq_true, not_or]
    refine ⟨fun habs => hn ?_, by simpa [Text.ofString] using hd⟩
    obtain ⟨rest, rfl⟩ := isPrefixOf_iff_prefix.mp habs
    exact mem_append_left _ (mem_singleton.mpr rfl)
  by_cases hend : Text.endsWith d "/" = true
  · obtain ⟨front, hfront⟩ := isSuffixOf_iff_suffix.mp hend
    refine ⟨front, fun c hc => hfront ▸ mem_append_left _ hc, fun n hn => ?_⟩
    rw [join, if_neg (hrelative hn), if_pos hend, ← hfront]
    exact append_assoc _ _ _
  · refine ⟨d, fun _ => id, fun n hn => ?_⟩
    rw [join, if_neg (hrelative hn), if_neg hend]
    exact append_assoc _ _ _

/-- A directory as it is listed for a pattern. -/
def listed (d : Text) : Text := (split (join d "*.py")).1

theorem split_join (hd : d ≠ []) (hstep : .char '/' ∉ step) : split (join d step) = (listed d, step) := by
  obtain ⟨front, -, hjoin⟩ := exists_join hd
  have hcut {step : Text} (hstep : .char '/' ∉ step) : Text.rcut? "/" (join d step) = some (front, step) := by
    rw [hjoin step hstep]
    exact Text.rcut?_stop (.char '/') front hstep
  rw [listed, split, split, hcut hstep, hcut (by decide)]

theorem listed_spec (hd : d ≠ []) : listed d ≠ [] ∧ ∀ c ∈ listed d, c ∈ d ∨ c = .char '/' := by
  obtain ⟨front, hfront, hjoin⟩ := exists_join hd
  have hcut : Text.rcut? "/" (join d "*.py") = some (front, Text.ofString "*.py") := by
    rw [hjoin _ (by decide)]
    exact Text.rcut?_stop (.char '/') front (by decide)
  rw [listed, split, hcut]
  dsimp only
  split
  · refine ⟨append_ne_nil_of_right_ne_nil _ (by decide), fun c hc => ?_⟩
    exact (mem_append.mp hc).imp (hfront c) mem_singleton.mp
  · rename_i hne
    refine ⟨by simpa [Text.ofString] using hne, fun c hc => .inl (hfront c ?_)⟩
    exact mem_reverse.mp ((dropWhile_suffix _).subset (mem_reverse.mp hc))

theorem isWild_listed (hd : d ≠ []) (hplain : Wildcard.isWild d = false) : Wildcard.isWild (listed d) = false := by
  rw [Wildcard.isWild, any_eq_false] at hplain ⊢
  intro c hc
  obtain hc | rfl := (listed_spec hd).2 c hc
  · exact hplain c hc
  · decide

theorem isWild_of_join (hd : d ≠ []) (hstep : .char '/' ∉ step) (h : Wildcard.isWild (join d step) = false) :
    Wildcard.isWild step = false := by
  obtain ⟨front, -, hjoin⟩ := exists_join hd
  rw [hjoin step hstep, Wildcard.isWild, any_append, any_cons, Bool.or_eq_false_iff, Bool.or_eq_false_iff] at h
  exact h.2.2

theorem isWild_join (hd : d ≠ []) (hplain : Wildcard.isWild d = false) (hstep : .char '/' ∉ step)
    (h : Wildcard.isWild step = false) : Wildcard.isWild (join d step) = false := by
  obtain ⟨front, hfront, hjoin⟩ := exists_join hd
  rw [Wildcard.isWild, any_eq_false] at hplain
  rw [hjoin step hstep, Wildcard.isWild, any_append, any_cons, Bool.or_eq_false_iff, Bool.or_eq_false_iff, any_eq_false]
  exact ⟨fun c hc => hplain c (hfront c hc), by decide, h⟩

theorem walkSteps_join_step (d : Text) (hn : IsStep n) : ∃ xs, Store.walkSteps (join d n) = xs ++ [n] := by
  by_cases hd : d = []
  · subst hd
    refine ⟨[], ?_⟩
    have hjoin : join [] n = n := if_pos (by simp [Text.ofString])
    rw [hjoin]
    exact @walkSteps_join [n] (by simpa using hn) (cons_ne_nil _ _)
  · obtain ⟨front, -, hjoin⟩ := exists_join hd
    have hend : ¬ Text.endsWith (front ++ .char '/' :: n) "/" = true := by
      intro hend
      obtain ⟨u, hu⟩ := isSuffixOf_iff_suffix.mp hend
      obtain ⟨m, c, rfl⟩ := (eq_nil_or_concat n).resolve_left hn.ne_nil
      rw [concat_eq_append, ← cons_append, ← append_assoc] at hu
      have hc := append_inj_right' hu rfl
      exact hn.no_slash (by rw [concat_eq_append, ← hc]; exact mem_append_right _ (mem_singleton.mpr rfl))
    have hsplit : Text.splitOn "/" (front ++ .char '/' :: n) = Text.splitOn "/" front ++ [n] := by
      rw [← Text.splitOn_of_not_mem hn.no_slash]
      exact Text.splitOn_append_stop (.char '/') front n
    rw [hjoin n hn.no_slash, Store.walkSteps, if_neg hend, hsplit, filter_append]
    exact ⟨_, congrArg _ (filter_cons_of_pos (by simpa using hn.ne_nil))⟩

end FileName

namespace Store

variable {s : Store} {cwd : Place}

theorem Unlinks.last_of_join (h : s.Unlinks cwd (join d n) p) (hn : IsStep n) (hup : n ≠ "..") :
    p.getLast? = some n := by
  obtain ⟨e, he⟩ := h.leads
  obtain ⟨-, -, hwalks, -⟩ := of_locate_eq_ok he
  obtain ⟨xs, hxs⟩ := walkSteps_join_step d hn
  exact (hwalks.last_step hxs hn.ne_stay hup).2 rfl

theorem exists_of_mem_glob (hd : d ≠ []) (hstep : IsStep step) (h : name ∈ s.glob cwd (join d step)) :
    name = join d step ∧ Wildcard.isWild step = false
      ∨ ∃ d' n, name = join d' n ∧ n ∈ s.matchesIn cwd false d' step := by
  rw [glob, Text.sort, mem_mergeSort, mem_filter, globFrom, split_join hd hstep.no_slash] at h
  obtain ⟨h, -⟩ := h
  dsimp only at h
  rw [if_neg (by simpa using (listed_spec hd).1 : ¬ (listed d).isEmpty = true), if_neg (by simpa using hstep.ne_nil : ¬ step.isEmpty = true)] at h
  split at h
  · rename_i hwild
    left
    split at h
    · exact ⟨mem_singleton.mp h, isWild_of_join hd hstep.no_slash (by simpa using hwild)⟩
    · cases h
  · right
    obtain ⟨d', -, h⟩ := mem_flatMap.mp h
    obtain ⟨n, hn, rfl⟩ := mem_map.mp h
    exact ⟨d', n, rfl, hn⟩

theorem mem_glob_iff (hd : d ≠ []) (hplain : Wildcard.isWild d = false) : name ∈ s.glob cwd (join d "*.py")
    ↔ (∃ n ∈ s.matchesIn cwd false (listed d) "*.py", join (listed d) n = name) ∧ name ≠ [] := by
  have hslash : .char '/' ∉ Text.ofString "*.py" := by decide
  have hwild : ¬ (!Wildcard.isWild (join d "*.py")) = true := by
    intro h
    exact absurd (isWild_of_join hd hslash (by simpa using h)) (by decide)
  have hlisted : ¬ (listed d != join d "*.py" && Wildcard.isWild (listed d)) = true := by
    rw [isWild_listed hd hplain, Bool.and_false]
    decide
  rw [glob, Text.sort, mem_mergeSort, mem_filter, globFrom, split_join hd hslash]
  dsimp only
  rw [if_neg hwild, if_neg (by simpa using (listed_spec hd).1 : ¬ (listed d).isEmpty = true), if_neg hlisted,
    flatMap_singleton, mem_map]
  exact and_congr_right' (by simp)

/-- A plain name in a plain directory is found if something is there. -/
theorem glob_plain (hd : d ≠ []) (hplain : Wildcard.isWild d = false) (hstep : IsStep step)
    (hstep' : Wildcard.isWild step = false) :
    s.glob cwd (join d step) = if s.hasLink cwd (join d step) then [join d step] else [] := by
  have hwild : (!Wildcard.isWild (join d step)) = true := by
    rw [isWild_join hd hplain hstep.no_slash hstep']
    rfl
  rw [glob, globFrom, split_join hd hstep.no_slash]
  dsimp only
  rw [if_pos hwild, if_neg (by simpa using hstep.ne_nil : ¬ step.isEmpty = true)]
  split
  · rename_i hlink
    have hne : join d step ≠ [] := by
      intro hnil
      rw [hnil] at hlink
      cases hlink
    rw [filter_cons_of_pos (by simpa using hne)]
    exact mergeSort_singleton _
  · exact mergeSort_nil

theorem removeAll_plain (s : Store) (cwd : Place) (name : Text) :
    s.removeAll cwd (if s.hasLink cwd name then [name] else []) = s.removeAll cwd [name] := by
  split
  · rfl
  · rename_i hlink
    cases hremove : s.remove cwd name with
    | error f => simp [removeAll, hremove]; rfl
    | ok s' =>
      obtain ⟨q, hq, -⟩ := unlinks_of_remove hremove
      obtain ⟨e, he⟩ := hq.leads
      exact absurd (by rw [hasLink, he]; rfl) hlink

end Store

/-! ## The clean-up -/

namespace ScriptCheck.Config

variable {s : Store} {cwd : Place} {c : Config} {st st' : State} {w w' : Workspace}

/-- A name that the clean-up goes by: it ends as a script does and is not hidden. -/
def IsScriptName (n : Text) : Prop := Wildcard.isHidden n = false ∧ ∃ front, n = front ++ ".py"

/-- The name of a copy: a time, a process and something more. -/
def IsCopyName (n : Text) : Prop :=
  ∃ time pid rest : Text, time ≠ [] ∧ pid ≠ [] ∧ time.all isDigit = true ∧ pid.all isDigit = true
    ∧ n = time ++ "_pid" ++ pid ++ "_" ++ rest ++ ".py"

/-- The name of the note on the settings. -/
def noteName : Text := "pylintrc_used.txt"

theorem mem_matchesIn_iff : n ∈ s.matchesIn cwd false d "*.py" ↔ n ∈ s.namesIn cwd d false ∧ IsScriptName n := by
  have hends : Wildcard.accepts "*.py" n = true ↔ ∃ front, n = front ++ ".py" :=
    @Wildcard.accepts_star [] ".py" n (by decide) (by decide)
  have hmatches : s.matchesIn cwd false d "*.py" = (s.namesIn cwd d false).filter fun n =>
      (Wildcard.isHidden "*.py" || !Wildcard.isHidden n) && Wildcard.accepts "*.py" n := rfl
  have hhidden : Wildcard.isHidden "*.py" = false := by decide
  rw [hmatches, mem_filter, hhidden, Bool.false_or, Bool.and_eq_true, Bool.not_eq_true', hends, IsScriptName]

theorem glob_of_runIn {names : List Text} {pattern : Text} (h : runIn w (glob pattern) = (.ok names, w')) :
    w' = w ∧ names = w.store.glob w.cwd pattern := by
  rw [glob, runIn_bind_of_ok (runIn_get w)] at h
  split at h
  · obtain ⟨⟨⟩, w₁, hname, h⟩ := runIn_bind_eq_ok.mp h
    obtain ⟨-, rfl⟩ := runIn_lift_eq_ok.mp hname
    cases h
    exact ⟨rfl, rfl⟩
  · cases h
    exact ⟨rfl, rfl⟩

theorem store_of_clean (hdirectory : runIn w c.directory = (.ok d, w)) (hrun : runIn w (c.clean st) = (.ok st', w')) :
    w'.store = w.store ∧ (st.cleaned = true ∨ w.store.has w.cwd d = false)
      ∨ st.cleaned = false ∧ w.store.has w.cwd d = true
        ∧ ∃ s, s = w.store.removeAll w.cwd (w.store.glob w.cwd (join d "*.py"))
          ∧ w'.store = s.removeAll w.cwd (s.glob w.cwd (join d noteName)) := by
  rw [clean] at hrun
  split at hrun
  · rename_i hcleaned
    cases hrun
    exact .inl ⟨rfl, .inl hcleaned⟩
  · rename_i hcleaned
    rw [runIn_bind_of_ok hdirectory] at hrun
    obtain ⟨there, w₁, hexists, hrun⟩ := runIn_bind_eq_ok.mp hrun
    cases hexists
    dsimp only at hrun
    split at hrun
    · rename_i hthere
      obtain ⟨copies, w₂, hcopies, hrun⟩ := runIn_bind_eq_ok.mp hrun
      obtain ⟨rfl, rfl⟩ := glob_of_runIn hcopies
      rw [runIn_bind_of_ok (runIn_forM_removeQuietly _ _)] at hrun
      obtain ⟨notes, w₃, hnotes, hrun⟩ := runIn_bind_eq_ok.mp hrun
      obtain ⟨rfl, rfl⟩ := glob_of_runIn hnotes
      rw [runIn_bind_of_ok (runIn_forM_removeQuietly _ _)] at hrun
      refine .inr ⟨by simpa using hcleaned, hthere, _, rfl, ?_⟩
      split at hrun
      · obtain ⟨⟨⟩, w₄, hprint, hrun⟩ := runIn_bind_eq_ok.mp hrun
        cases hprint
        cases hrun
        rfl
      · cases hrun
        rfl
    · rename_i hthere
      cases hrun
      exact .inl ⟨rfl, .inr (by simpa using hthere)⟩

theorem isStep_noteName : IsStep noteName ∧ noteName ≠ ".." :=
  ⟨⟨by decide, by decide, by decide⟩, by decide⟩

theorem isStep_pattern : IsStep "*.py" := ⟨by decide, by decide, by decide⟩

/-- Names that are found for a pattern lead to files of that kind, whatever the directory. -/
theorem last_of_scripts (hproper : s.IsProper) (hd : d ≠ []) (hname : name ∈ s.glob cwd (join d "*.py"))
    {s' : Store} (h : s'.Unlinks cwd name p) : ∃ n, p.getLast? = some n ∧ IsScriptName n := by
  obtain ⟨-, hwild⟩ | ⟨d', n, rfl, hn⟩ := Store.exists_of_mem_glob hd isStep_pattern hname
  · exact absurd hwild (by decide)
  · obtain ⟨hlisted, hscript⟩ := mem_matchesIn_iff.mp hn
    obtain ⟨hstep, hup⟩ := hproper.of_mem_namesIn hlisted
    exact ⟨n, h.last_of_join hstep hup, hscript⟩

theorem last_of_notes (hd : d ≠ []) (hname : name ∈ s.glob cwd (join d noteName))
    (h : s.Unlinks cwd name p) : p.getLast? = some noteName := by
  obtain ⟨rfl, -⟩ | ⟨d', n, rfl, hn⟩ := Store.exists_of_mem_glob hd isStep_noteName.1 hname
  · exact h.last_of_join isStep_noteName.1 isStep_noteName.2
  · have hmatches : s.matchesIn cwd false d' noteName = if s.hasLink cwd (join d' noteName) then [noteName] else [] := rfl
    rw [hmatches] at hn
    split at hn
    · rw [mem_singleton.mp hn] at h
      exact h.last_of_join isStep_noteName.1 isStep_noteName.2
    · cases hn

/-- What is removed, if the directory for the copies is there and its name holds no wildcard. -/
theorem lost_iff_of_clean (hdirectory : runIn w c.directory = (.ok d, w))
    (hrun : runIn w (c.clean st) = (.ok st', w')) (hfirst : st.cleaned = false) (hthere : w.store.has w.cwd d = true)
    (hplain : Wildcard.isWild d = false)
    (hfiles : w.store.OnlyFiles w.cwd (w.store.glob w.cwd (join d "*.py") ++ [join d noteName])) (p : Place) :
    w.Lost w' p ↔ (∃ n ∈ w.store.namesIn w.cwd (listed d) false, IsScriptName n
      ∧ w.store.Unlinks w.cwd (join (listed d) n) p) ∨ w.store.Unlinks w.cwd (join d noteName) p := by
  have hd : d ≠ [] := by
    rintro rfl
    cases hthere
  obtain ⟨-, h⟩ | ⟨-, -, s, hs, hstore⟩ := store_of_clean hdirectory hrun
  · simp [hfirst, hthere] at h
  rw [Store.glob_plain hd hplain isStep_noteName.1 (by decide), Store.removeAll_plain, hs] at hstore
  rw [Workspace.lost_iff (hstore.trans foldl_append.symm) hfiles]
  simp only [mem_append, mem_singleton, or_and_right, exists_or, exists_eq_left]
  refine or_congr_left ?_
  simp only [Store.mem_glob_iff hd hplain, mem_matchesIn_iff]
  constructor
  · rintro ⟨-, ⟨⟨n, ⟨hn, hscript⟩, rfl⟩, -⟩, h⟩
    exact ⟨n, hn, hscript, h⟩
  · rintro ⟨n, hn, hscript, h⟩
    obtain ⟨e, he⟩ := h.leads
    exact ⟨_, ⟨⟨n, ⟨hn, hscript⟩, rfl⟩, (Store.of_locate_eq_ok he).1⟩, h⟩

/-- **What is removed before scripts are checked**: files whose names end as a script does, or the note on the
settings. If the name of the directory holds no wildcard, all these files go that are in it and are not hidden. So
these are copies of scripts only if and only if no other script is there. -/
theorem removes_only_copies_iff (hproper : w.store.IsProper) (hdirectory : runIn w c.directory = (.ok d, w))
    (hrun : runIn w (c.clean st) = (.ok st', w')) :
    (∀ p, w.Lost w' p → ∃ n, p.getLast? = some n ∧ (IsScriptName n ∨ n = noteName))
      ∧ (st.cleaned = false → w.store.has w.cwd d = true → Wildcard.isWild d = false →
        w.store.OnlyFiles w.cwd (w.store.glob w.cwd (join d "*.py") ++ [join d noteName]) →
        (∀ p, w.Lost w' p ↔ (∃ n ∈ w.store.namesIn w.cwd (listed d) false, IsScriptName n
            ∧ w.store.Unlinks w.cwd (join (listed d) n) p) ∨ w.store.Unlinks w.cwd (join d noteName) p)
        ∧ ((∀ p, w.Lost w' p → ∃ n, p.getLast? = some n ∧ (IsCopyName n ∨ n = noteName))
          ↔ ∀ n ∈ w.store.namesIn w.cwd (listed d) false, ∀ p, IsScriptName n →
            w.store.Unlinks w.cwd (join (listed d) n) p → IsCopyName n)) := by
  refine ⟨fun p hp => ?_, fun hfirst hthere hplain hfiles => ?_⟩
  · obtain ⟨hsome, hnone⟩ := hp
    obtain ⟨hstore, -⟩ | ⟨-, hthere, s, rfl, hstore⟩ := store_of_clean hdirectory hrun
    · rw [← hstore, hnone] at hsome
      cases hsome
    · have hd : d ≠ [] := by
        rintro rfl
        cases hthere
      rw [hstore] at hnone
      obtain hsame | ⟨-, name, hname, h⟩ := Store.entry?_removeAll _ w.cwd
        (Store.glob (w.store.removeAll w.cwd (w.store.glob w.cwd (join d "*.py"))) w.cwd (join d noteName)) p
      · rw [hnone] at hsame
        obtain hsame' | ⟨-, name, hname, h⟩ := Store.entry?_removeAll w.store w.cwd (w.store.glob w.cwd (join d "*.py")) p
        · rw [← hsame', ← hsame] at hsome
          cases hsome
        · obtain ⟨n, hn, hscript⟩ := last_of_scripts hproper hd hname h
          exact ⟨n, hn, .inl hscript⟩
      · exact ⟨noteName, last_of_notes hd hname h, .inr rfl⟩
  · have hlost := lost_iff_of_clean hdirectory hrun hfirst hthere hplain hfiles
    refine ⟨hlost, fun hcopies n hn p hscript h => ?_, fun hcopies p hp => ?_⟩
    · obtain ⟨m, hm, hcopy⟩ := hcopies p ((hlost p).mpr (.inl ⟨n, hn, hscript, h⟩))
      obtain ⟨hstep, hup⟩ := hproper.of_mem_namesIn hn
      rw [h.last_of_join hstep hup] at hm
      obtain rfl := Option.some.inj hm
      refine hcopy.resolve_right ?_
      rintro rfl
      obtain ⟨-, front, hfront⟩ := hscript
      have hlast := congrArg getLast? hfront
      rw [getLast?_append] at hlast
      cases hlast
    · obtain ⟨n, hn, hscript, h⟩ | h := (hlost p).mp hp
      · obtain ⟨hstep, hup⟩ := hproper.of_mem_namesIn hn
        exact ⟨n, h.last_of_join hstep hup, .inl (hcopies n hn p hscript h)⟩
      · exact ⟨noteName, h.last_of_join isStep_noteName.1 isStep_noteName.2, .inr rfl⟩

/-- A rule that keeps copies beside the tools of the user. -/
def sharing : Config where
  scope := { targets := .kinds NodeKind.scripts, severity := .error }
  settings := none
  debug := false
  batch := false
  debugDirectory := .str "tools"
  mapping := usualMapping

def oneTool : Workspace where
  store := ⟨[(["tools"], .directory (.ofInt 60)), (["tools", "helper.py"], .file "x = 1" (.ofInt 60))]⟩
  cwd := []

theorem lost_oneTool : ∃ st w, runIn oneTool (sharing.clean {}) = (.ok st, w) ∧ oneTool.Lost w ["tools", "helper.py"] := by
  have hrun : ∃ st w, runIn oneTool (sharing.clean {}) = (.ok st, w) ∧
      (Store.entry? w.store ["tools", "helper.py"]).isNone = true := by decide +kernel
  obtain ⟨st, w, hrun, hnone⟩ := hrun
  exact ⟨st, w, hrun, rfl, Option.isNone_iff_eq_none.mp hnone⟩

/-- A tool of the user goes. -/
theorem not_always_copies : ¬ ∀ (c : Config) (st st' : State) (w w' : Workspace), runIn w (c.clean st) = (.ok st', w') →
    ∀ p, w.Lost w' p → ∃ n, p.getLast? = some n ∧ (IsCopyName n ∨ n = noteName) := by
  intro hall
  obtain ⟨st, w, hrun, hlost⟩ := lost_oneTool
  obtain ⟨n, hn, hname⟩ := hall _ _ _ _ _ hrun _ hlost
  obtain rfl := Option.some.inj hn
  obtain ⟨time, pid, rest, htime, -, hdigits, -, hname⟩ | hname := hname
  · obtain ⟨digit, time, rfl⟩ := exists_cons_of_ne_nil htime
    have hdigit := (cons.inj hname).1
    rw [all_cons, Bool.and_eq_true, ← hdigit] at hdigits
    exact absurd hdigits.1 (by decide)
  · exact absurd hname (by decide)

theorem removes_only_copies_iff_oneTool : oneTool.store.IsProper
    ∧ runIn oneTool sharing.directory = (.ok "/tools", oneTool) ∧ oneTool.store.has oneTool.cwd "/tools" = true
    ∧ Wildcard.isWild "/tools" = false
    ∧ ∃ st w, runIn oneTool (sharing.clean {}) = (.ok st, w)
      ∧ ((∀ p, oneTool.Lost w p → ∃ n, p.getLast? = some n ∧ (IsCopyName n ∨ n = noteName))
        ↔ ∀ n ∈ oneTool.store.namesIn oneTool.cwd (listed "/tools") false, ∀ p, IsScriptName n →
          oneTool.store.Unlinks oneTool.cwd (join (listed "/tools") n) p → IsCopyName n) := by
  have hproper : oneTool.store.IsProper := by
    have hplace : ∀ step ∈ [Text.ofString "tools", "helper.py"], IsStep step ∧ step ≠ ".." := by
      intro step hstep
      obtain rfl | hstep := mem_cons.mp hstep
      · exact ⟨⟨by decide, by decide, by decide⟩, by decide⟩
      · rw [mem_singleton.mp hstep]
        exact ⟨⟨by decide, by decide, by decide⟩, by decide⟩
    exact forall_mem_cons.mpr ⟨fun step hstep => hplace step (mem_cons.mpr (.inl (mem_singleton.mp hstep))),
      forall_mem_cons.mpr ⟨hplace, forall_mem_nil _⟩⟩
  have hfiles (names : List Text) : oneTool.store.OnlyFiles oneTool.cwd names :=
    Store.onlyFiles_of_no_link (by simp [oneTool])
  obtain ⟨st, w, hrun, -⟩ := lost_oneTool
  have hiff := (removes_only_copies_iff hproper (d := "/tools") rfl hrun).2 rfl rfl (by decide) (hfiles _)
  exact ⟨hproper, rfl, rfl, by decide, st, w, hrun, hiff.2⟩

end ScriptCheck.Config

end ViewLint
