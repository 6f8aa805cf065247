import ViewLint.Proofs.BatchSums
import ViewLint.Proofs.BlankFiles
import ViewLint.Proofs.KeptDirectories
import ViewLint.Proofs.RecordedNames
import ViewLint.Proofs.WrittenNames

/-!
# Generated whitelists

A whitelist that is generated names the files that match patterns, and those that an existing whitelist names if it is
added to. The names are written one on a line and read again.

* **`Whitelist.entries_written`**: the names that are read from a whitelist are those that have been written.
* `Whitelist.Loads`: the files that a whitelist names; **`Whitelist.loads_iff`** tells them by its lines.
* **`Whitelist.generated_whitelist_loads`**: what a generated whitelist names, and what is linted then.
-/

namespace ViewLint

open Session List Text FileName

/-! ## Lines -/

namespace Text

theorem mem_dedup {xs : List Text} {a : Text} : a ∈ dedup xs ↔ a ∈ xs := by
  have hiff := (foldl_dedup xs [] nodup_nil).2 a
  rw [dedup, mem_reverse, hiff]
  simp

theorem return_not_mem_normalizeBreaks (s : Text) : .char '\r' ∉ normalizeBreaks s := by
  fun_induction normalizeBreaks s with
  | case1 => exact not_mem_nil
  | case2 _ ih | case3 _ _ ih => simpa using ih
  | case4 c r _ hc ih => simpa [Ne.symm hc] using ih

theorem strip_cons {c : CodePoint} (hc : isBlank c = false) (r : Text) : ∃ t, strip (c :: r) = c :: t := by
  rw [strip, stripStart, dropWhile_cons_of_neg (by simp [hc]), stripEnd, reverse_cons, dropWhile_append]
  split
  · exact ⟨[], by simp [hc]⟩
  · exact ⟨_, by rw [reverse_append]; rfl⟩

theorem strip_ends (s : Text) :
    (∀ c ∈ (strip s).head?, isBlank c = false) ∧ ∀ c ∈ (strip s).getLast?, isBlank c = false := by
  have hdrop {l : Text} : ∀ c ∈ (l.dropWhile isBlank).head?, isBlank c = false := by
    intro c hc
    have hnot := head?_dropWhile_not isBlank l
    rwa [hc] at hnot
  constructor
  · -- What is stripped at its end starts as before
    intro c hc
    obtain ⟨r, hr⟩ := head?_eq_some_iff.mp hc
    have hstart : strip s <+: stripStart s := by
      rw [← reverse_suffix, strip, stripEnd, reverse_reverse]
      exact dropWhile_suffix isBlank
    obtain ⟨u, hu⟩ := hstart
    rw [hr] at hu
    exact @hdrop s c (by rw [← stripStart, ← hu]; rfl)
  · intro c hc
    rw [strip, stripEnd, getLast?_reverse] at hc
    exact hdrop c hc

end Text

namespace Whitelist

variable {P : Place → Prop} {name path text : Text} {new old : List Text} {w w' : Workspace}

/-- A name that can stand on a line of a whitelist. -/
structure IsEntry (name : Text) : Prop where
  ne_nil : name ≠ []
  starts : ∀ c ∈ name.head?, isBlank c = false
  ends : ∀ c ∈ name.getLast?, isBlank c = false
  no_break : .char '\n' ∉ name ∧ .char '\r' ∉ name
  no_comment : startsWith name "#" = false

theorem entries_append (a r : Text) : entries (a ++ .char '\n' :: r) = entries a ++ entries r := by
  have hsplit : splitOn "\n" (a ++ .char '\n' :: r) = splitOn "\n" a ++ splitOn "\n" r :=
    splitOn_append_stop (.char '\n') a r
  rw [entries, hsplit, map_append, filter_append, entries, entries]

theorem entries_lines (lines : List Text) :
    entries (lines.map (· ++ ofString "\n")).flatten = lines.flatMap entries := by
  induction lines with
  | nil => decide
  | cons line lines ih =>
    rw [map_cons, flatten_cons, append_assoc, flatMap_cons, ← ih]
    exact entries_append line _

theorem entries_comment {r : Text} (h : .char '\n' ∉ r) : entries (.char '#' :: r) = [] := by
  have hsplit : splitOn "\n" (.char '#' :: r) = [.char '#' :: r] := by
    refine splitOn_of_not_mem fun hc => ?_
    exact (mem_cons.mp hc).elim (by decide) h
  have hblank : isBlank (.char '#') = false := by decide
  obtain ⟨t, ht⟩ := strip_cons hblank r
  rw [entries, hsplit, map_singleton, ht]
  rfl

theorem IsEntry.entries_eq (h : IsEntry name) : entries name = [name] := by
  have hsplit : splitOn "\n" name = [name] := splitOn_of_not_mem h.no_break.1
  have hstart : stripStart name = name := by
    obtain ⟨c, r, rfl⟩ := exists_cons_of_ne_nil h.ne_nil
    exact dropWhile_cons_of_neg (by simp [h.starts c rfl])
  have hstrip : strip name = name := by
    obtain ⟨front, c, hname⟩ := (eq_nil_or_concat name).resolve_left h.ne_nil
    have hc := h.ends c (by rw [hname, concat_eq_append, getLast?_concat]; rfl)
    rw [strip, hstart, stripEnd, hname, concat_eq_append, reverse_concat,
      dropWhile_cons_of_neg (by simp [hc]), ← reverse_concat, reverse_reverse]
  have hne : name.isEmpty = false := by simp [h.ne_nil]
  rw [entries, hsplit, map_singleton, hstrip, filter_singleton, hne, h.no_comment]
  rfl

theorem isEntry_of_mem_entries (hreturn : .char '\r' ∉ text) (h : name ∈ entries text) : IsEntry name := by
  obtain ⟨hmem, hkeep⟩ := mem_filter.mp h
  obtain ⟨piece, hpiece, rfl⟩ := mem_map.mp hmem
  have hsplit : piece ∈ splitWhere (· == .char '\n') text := splitOn_singleton (.char '\n') text ▸ hpiece
  simp only [Bool.and_eq_true, Bool.not_eq_true'] at hkeep
  refine ⟨by simpa using hkeep.1, (strip_ends piece).1, (strip_ends piece).2, ⟨?_, ?_⟩, hkeep.2⟩
  · exact fun hc => not_mem_of_mem_splitOn hpiece (Naming.mem_of_mem_strip hc)
  · exact fun hc => hreturn (mem_of_mem_splitWhere hsplit (Naming.mem_of_mem_strip hc)).1

/-! ## Whitelists that are written -/

/-- The text of a whitelist that is written. -/
def written (old new : List Text) : Text := ((render old new).map (· ++ Text.ofString "\n")).flatten

/-- A line that does not count. -/
structure IsComment (line : Text) : Prop where
  starts : startsWith line "#" = true
  no_break : .char '\n' ∉ line ∧ .char '\r' ∉ line
  encodable : isEncodable line = true

theorem IsComment.count {front back : Text} (h : IsComment front)
    (hback : (.char '\n' ∉ back ∧ .char '\r' ∉ back) ∧ isEncodable back = true) (n : Nat) :
    IsComment (front ++ natText n ++ back) := by
  refine ⟨?_, ⟨?_, ?_⟩, ?_⟩
  · obtain ⟨r, rfl⟩ := isPrefixOf_iff_prefix.mp h.starts
    rw [append_assoc, append_assoc]
    exact isPrefixOf_iff_prefix.mpr (prefix_append _ _)
  · simp only [mem_append, not_or]
    exact ⟨⟨h.no_break.1, not_mem_natText '\n' rfl n⟩, hback.1.1⟩
  · simp only [mem_append, not_or]
    exact ⟨⟨h.no_break.2, not_mem_natText '\r' rfl n⟩, hback.1.2⟩
  · rw [isEncodable_append, isEncodable_append, h.encodable, isEncodable_natText, hback.2]
    rfl

theorem render_eq (old new : List Text) :
    ∃ front, render old new = front ++ [] :: merged old new ∧ ∀ line ∈ front, IsComment line := by
  have hplain {line : Text} (h : startsWith line "#" && !line.contains (.char '\n') &&
      !line.contains (.char '\r') && isEncodable line) : IsComment line := by
    simp only [Bool.and_eq_true, Bool.not_eq_true', contains_eq_mem, decide_eq_false_iff_not] at h
    exact ⟨h.1.1.1, ⟨h.1.1.2, h.1.2⟩, h.2⟩
  refine ⟨_ :: _ :: _ :: _ :: (if old.isEmpty then [] else ["# Existing: " ++ natText old.length ++ " files"]), rfl, ?_⟩
  simp only [forall_mem_cons]
  refine ⟨hplain (by decide), hplain (by decide), hplain (by decide), (hplain (by decide)).count (by decide) _, ?_⟩
  split
  · exact forall_mem_nil _
  · exact forall_mem_singleton.mpr ((hplain (by decide)).count (by decide) _)

theorem entries_written (h : ∀ name ∈ merged old new, IsEntry name) :
    entries (normalizeBreaks (written old new)) = merged old new := by
  obtain ⟨front, hrender, hfront⟩ := render_eq old new
  have hreturn : .char '\r' ∉ written old new := by
    rw [written, hrender]
    intro hc
    obtain ⟨piece, hpiece, hc⟩ := mem_flatten.mp hc
    obtain ⟨line, hline, rfl⟩ := mem_map.mp hpiece
    obtain hc | hc := mem_append.mp hc
    · rw [mem_append, mem_cons] at hline
      obtain hline | rfl | hline := hline
      · exact (hfront line hline).no_break.2 hc
      · cases hc
      · exact (h line hline).no_break.2 hc
    · exact absurd hc (by decide)
  have hcomments : front.flatMap entries = [] := by
    refine flatMap_eq_nil_iff.mpr fun line hline => ?_
    obtain ⟨r, rfl⟩ := isPrefixOf_iff_prefix.mp (hfront line hline).starts
    exact entries_comment fun hc => (hfront _ hline).no_break.1 (mem_append_right _ hc)
  have hnames : (merged old new).flatMap entries = (merged old new).flatMap ([·]) :=
    flatMap_congr fun name hname => (h name hname).entries_eq
  rw [normalizeBreaks_of_not_mem hreturn, written, entries_lines, hrender, flatMap_append, hcomments,
    flatMap_cons, hnames, flatMap_singleton']
  rfl

theorem isEncodable_render : (∀ line ∈ render old new, isEncodable line = true) ↔
      ∀ name ∈ merged old new, isEncodable name = true := by
  obtain ⟨front, hrender, hfront⟩ := render_eq old new
  rw [hrender, forall_mem_append, forall_mem_cons]
  exact ⟨fun h => h.2.2, fun h => ⟨fun line hline => (hfront line hline).encodable, rfl, h⟩⟩

theorem mem_merged : name ∈ merged old new ↔ name ∈ old ∨ name ∈ new := by
  unfold merged
  split
  · next hold =>
    rw [isEmpty_iff.mp hold]
    simp
  · rw [sort, mem_mergeSort, mem_dedup, mem_append]

/-! ## Loading -/

/-- The file that a line names can be looked for: it is not behind links that lead back to themselves. -/
def IsLoadable (s : Store) (cwd : Place) (line : Text) : Prop := ∀ link, s.resolve cwd line ≠ .error (.linkLoop link)

theorem runIn_placeOf_iff {line : Text} {place? : Option Place} : (∃ v, runIn w (placeOf line) = (.ok place?, v)) ↔
      IsLoadable w.store w.cwd line ∧ place? = (w.store.resolve w.cwd line).toOption := by
  cases hresolve : w.store.resolve w.cwd line with
  | ok place =>
    have hrun : runIn w (placeOf line) = (.ok (some place), w) := by
      rw [placeOf, runIn_bind, runIn_attempt, runIn_resolve, hresolve]
      rfl
    simp [IsLoadable, hrun, hresolve, Except.toOption, eq_comm]
  | error f =>
    by_cases hloop : ∃ link, f = .linkLoop link
    · obtain ⟨link, rfl⟩ := hloop
      have hrun : runIn w (placeOf line) = (.error (.fault (.linkLoop link)), w) := by
        rw [placeOf, runIn_bind, runIn_attempt, runIn_resolve, hresolve]
        rfl
      simp [IsLoadable, hrun, hresolve]
    · have hrun : ∃ u, runIn w (placeOf line) = (.ok none, u) := by
        rw [placeOf, runIn_bind, runIn_attempt, runIn_resolve, hresolve]
        cases f with
        | linkLoop link => exact absurd ⟨link, rfl⟩ hloop
        | _ => exact ⟨_, rfl⟩
      obtain ⟨u, hrun⟩ := hrun
      have hload : IsLoadable w.store w.cwd line :=
        fun link hlink => hloop ⟨link, Except.error.inj (hresolve.symm.trans hlink)⟩
      simp [hrun, hload, Except.toOption, eq_comm]

theorem runIn_filterMapM_placeOf_iff {lines : List Text} {places : List Place} :
    (∃ v, runIn w (lines.filterMapM placeOf) = (.ok places, v)) ↔ (∀ line ∈ lines, IsLoadable w.store w.cwd line) ∧
        places = lines.filterMap fun line => (w.store.resolve w.cwd line).toOption := by
  induction lines generalizing w places with
  | nil => simp [eq_comm]
  | cons line lines ih =>
    have hsame {u : Workspace} {place? : Option Place} (h : runIn w (placeOf line) = (.ok place?, u)) :
        SameFiles w u := Keeps.of_eq_ok (keeps_placeOf line) h
    rw [filterMapM_cons, forall_mem_cons]
    constructor
    · rintro ⟨v, hv⟩
      obtain ⟨place?, u, hplace, hrest⟩ := runIn_bind_eq_ok.mp hv
      obtain ⟨hload, hplace?⟩ := runIn_placeOf_iff.mp ⟨u, hplace⟩
      cases place? with
      | none =>
        have hlines := ih.mp ⟨v, hrest⟩
        rw [(hsame hplace).store, (hsame hplace).cwd] at hlines
        exact ⟨⟨hload, hlines.1⟩, by simp only [filterMap_cons, ← hplace?, hlines.2]⟩
      | some place =>
        obtain ⟨more, u', hmore, hv⟩ := runIn_bind_eq_ok.mp hrest
        cases hv
        have hlines := ih.mp ⟨_, hmore⟩
        rw [(hsame hplace).store, (hsame hplace).cwd] at hlines
        exact ⟨⟨hload, hlines.1⟩, by simp only [filterMap_cons, ← hplace?, hlines.2]⟩
    · rintro ⟨⟨hload, hlines⟩, rfl⟩
      obtain ⟨u, hplace⟩ := runIn_placeOf_iff.mpr ⟨hload, rfl⟩
      have hlines := (@ih u _).mpr ⟨by rwa [(hsame hplace).store, (hsame hplace).cwd], rfl⟩
      rw [(hsame hplace).store, (hsame hplace).cwd] at hlines
      obtain ⟨v, hmore⟩ := hlines
      refine ⟨v, runIn_bind_eq_ok.mpr ⟨_, u, hplace, ?_⟩⟩
      rw [filterMap_cons]
      cases (w.store.resolve w.cwd line).toOption with
      | none => exact hmore
      | some place => exact runIn_bind_eq_ok.mpr ⟨_, v, hmore, rfl⟩

/-- The files that a whitelist names have a property, and no other files have it. -/
def Loads (w : Workspace) (path : Text) (P : Place → Prop) : Prop :=
  ∃ places v, runIn w (load path) = (.ok places, v) ∧ ∀ place, place ∈ places ↔ P place

/-- **The files that a whitelist names, by its lines.** -/
theorem loads_iff (h : w.store.content? w.cwd (tidy path) = some text) :
    Loads w path P ↔ (∀ line ∈ entries (normalizeBreaks text), IsLoadable w.store w.cwd line) ∧ ∀ place, P place ↔
        ∃ line ∈ entries (normalizeBreaks text), w.store.resolve w.cwd line = .ok place := by
  have htext : runIn w (attempt (textOf path)) = (.ok (.ok (normalizeBreaks text)), w) := by
    rw [runIn_attempt, textOf, runIn_bind_of_ok (runIn_checkedExists_of_content? h), if_pos rfl, runIn_readFile,
      Store.read_of_content? h]
    rfl
  have hmem (place : Place) : place ∈ (entries (normalizeBreaks text)).filterMap
      (fun line => (w.store.resolve w.cwd line).toOption) ↔
        ∃ line ∈ entries (normalizeBreaks text), w.store.resolve w.cwd line = .ok place := by
    have hsome {r : Except Fault Place} : r.toOption = some place ↔ r = .ok place := by
      cases r <;> simp [Except.toOption]
    simp only [mem_filterMap, hsome]
  have hkeys (places : List Place) (place : Place) :
      place ∈ Fields.keys (Fields.ofPairs (places.map (·, ()))) ↔ place ∈ places := by
    rw [Fields.mem_keys_ofPairs, Fields.keys, map_map]
    simp
  unfold Loads load
  rw [runIn_bind_of_ok htext]
  constructor
  · rintro ⟨found, v, hload, hfound⟩
    obtain ⟨places, u, hplaces, hload⟩ := runIn_bind_eq_ok.mp hload
    cases hload
    obtain ⟨hlines, rfl⟩ := runIn_filterMapM_placeOf_iff.mp ⟨_, hplaces⟩
    exact ⟨hlines, fun place => by rw [← hfound, hkeys, hmem]⟩
  · rintro ⟨hlines, hP⟩
    obtain ⟨u, hplaces⟩ := runIn_filterMapM_placeOf_iff.mpr ⟨hlines, rfl⟩
    refine ⟨_, u, runIn_bind_eq_ok.mpr ⟨_, u, hplaces, rfl⟩, fun place => ?_⟩
    rw [hkeys, hmem, hP]

/-! ## Files that match -/

/-- The files that match patterns. -/
def matched (s : Store) (cwd : Place) (patterns : List Text) : List Text := patterns.flatMap (s.glob cwd)

/-- The name under which a file is recorded, by the place that it stands for. -/
def recordedAs (cwd place : Place) (name : Text) : Text :=
  if cwd.isPrefixOf place then ofSteps "" (place.drop cwd.length) else name

section

variable (s : Store) (cwd : Place) (patterns : List Text)

/-- A place is that of a file that matches. -/
def IsMatched (place : Place) : Prop := ∃ file ∈ matched s cwd patterns, s.resolve cwd file = .ok place

/-- A name is recorded for a file that matches. -/
def IsRecorded (name : Text) : Prop :=
  ∃ file ∈ matched s cwd patterns, ∃ place, s.resolve cwd file = .ok place ∧ name = recordedAs cwd place file

/-- Patterns that can be looked up, for files that can be recorded. -/
structure AreRecordable : Prop where
  usable : ∀ pattern ∈ patterns, Wildcard.isWild pattern = true →
    Store.checkName (Wildcard.listedDirectory pattern) = .ok ()
  files : ∀ file ∈ matched s cwd patterns, ∃ place, s.resolve cwd file = .ok place ∧
    IsEntry (recordedAs cwd place file)

end

/-- A file and the name under which it is recorded stand for the same place. -/
theorem resolve_recordedAs {s : Store} {cwd place : Place} (hground : s.IsGrounded cwd)
    (hlinks : s.HasPossibleLinks) (h : s.resolve cwd name = .ok place) :
    s.resolve cwd (recordedAs cwd place name) = .ok place := by
  unfold recordedAs
  split
  · next hbelow =>
    obtain ⟨rest, rfl⟩ := isPrefixOf_iff_prefix.mp hbelow
    rw [drop_left]
    exact Store.resolve_below hground hlinks h
  · exact h

theorem runIn_glob {pattern : Text} (h : Wildcard.isWild pattern = true →
    Store.checkName (Wildcard.listedDirectory pattern) = .ok ()) (w : Workspace) :
    runIn w (glob pattern) = (.ok (w.store.glob w.cwd pattern), w) := by
  rw [glob, runIn_bind_of_ok (runIn_get w)]
  split
  · next hwild =>
    rw [h hwild]
    rfl
  · rfl

theorem runIn_flatMapM_glob {patterns : List Text} (h : ∀ pattern ∈ patterns, Wildcard.isWild pattern = true →
    Store.checkName (Wildcard.listedDirectory pattern) = .ok ()) :
    runIn w (patterns.flatMapM glob) = (.ok (matched w.store w.cwd patterns), w) := by
  induction patterns with
  | nil => rw [flatMapM_nil]; rfl
  | cons p patterns ih =>
    obtain ⟨hp, hpatterns⟩ := forall_mem_cons.mp h
    rw [flatMapM_cons, runIn_bind_of_ok (runIn_glob hp w), runIn_bind_of_ok (ih hpatterns)]
    rfl

theorem runIn_mapM_recordedName {files : List Text}
    (h : ∀ file ∈ files, ∃ place, w.store.resolve w.cwd file = .ok place) :
    ∃ names, runIn w (files.mapM recordedName) = (.ok names, w) ∧ ∀ name, name ∈ names ↔
      ∃ file ∈ files, ∃ place, w.store.resolve w.cwd file = .ok place ∧ name = recordedAs w.cwd place file := by
  induction files with
  | nil => exact ⟨[], by rw [mapM_nil]; rfl, by simp⟩
  | cons file files ih =>
    obtain ⟨⟨place, hplace⟩, hfiles⟩ := forall_mem_cons.mp h
    obtain ⟨names, hrun, hmem⟩ := ih hfiles
    have hname : runIn w (recordedName file) = (.ok (recordedAs w.cwd place file), w) := by
      rw [recordedName, runIn_bind, runIn_attempt, runIn_resolve, hplace]
      rfl
    refine ⟨recordedAs w.cwd place file :: names, ?_, fun name => ?_⟩
    · rw [mapM_cons, runIn_bind_of_ok hname, runIn_bind_of_ok hrun]
      rfl
    · simp [hmem, hplace]

theorem runIn_matching {patterns : List Text} (h : AreRecordable w.store w.cwd patterns) :
    ∃ new, runIn w (matching patterns) = (.ok new, w) ∧
      ∀ name, name ∈ new ↔ IsRecorded w.store w.cwd patterns name := by
  obtain ⟨names, hrun, hmem⟩ := runIn_mapM_recordedName fun file hfile => (h.files file hfile).imp fun _ => And.left
  refine ⟨Text.sort (Text.dedup names), ?_, fun name => ?_⟩
  · rw [matching, runIn_bind_of_ok (runIn_flatMapM_glob h.usable), runIn_bind_of_ok hrun]
    rfl
  · rw [Text.sort, mem_mergeSort, Text.mem_dedup, hmem]
    rfl

/-! ## Writing -/

/-- The names that are kept: the existing whitelist has to be opened under the very name that is given. -/
def IsKept (w : Workspace) (path : Text) (append : Bool) : Prop :=
  append = true ∧ (w.store.content? w.cwd path).isSome = true

/-- The names of the existing whitelist, if it is added to. -/
def oldNames (path : Text) (append : Bool) : Session (List Text) := if append then existing path else pure []

theorem runIn_oldNames (h : w.store.content? w.cwd (tidy path) = some text) (append : Bool) :
    ∃ old v, runIn w (oldNames path append) = (.ok old, v) ∧ SameFiles w v ∧
      ∀ name, name ∈ old ↔ IsKept w path append ∧ name ∈ entries (normalizeBreaks text) := by
  have hexists := runIn_checkedExists_of_content? h
  cases append with
  | false => exact ⟨[], w, rfl, .refl w, by simp [IsKept]⟩
  | true =>
    rw [oldNames, if_pos rfl, existing, runIn_bind_of_ok hexists]
    cases hopened : w.store.content? w.cwd path with
    | some text' =>
      obtain rfl : text' = text := Option.some.inj ((Store.content?_tidy hopened).symm.trans h)
      refine ⟨Text.dedup (entries (Text.normalizeBreaks text')), w, ?_, .refl w, fun name => ?_⟩
      · simp only [Bool.not_true, Bool.false_eq_true, if_false]
        rw [runIn_bind_of_ok (runIn_attempt_readFile_of_content? hopened)]
        rfl
      · simp [IsKept, hopened, Text.mem_dedup]
    | none =>
      have hname : Store.checkName path = .ok () := Store.checkName_tidy_iff.mp (Store.content?_eq_some_iff.mp h).1
      obtain ⟨e, he⟩ := Store.exists_read_eq_error hname hopened
      have hread : runIn w (attempt (readFile path)) = (.ok (.error (.storage e)), w) := by
        rw [runIn_attempt, runIn_readFile, he]
        rfl
      refine ⟨[], (runIn w (printLine ("⚠️  Warning: Could not read existing whitelist: " ++ e.message))).2, ?_,
        ⟨rfl, rfl, rfl, rfl⟩, by simp [IsKept, hopened]⟩
      simp only [Bool.not_true, Bool.false_eq_true, if_false]
      rw [runIn_bind_of_ok hread]
      rfl

/-- What is said about a whitelist that has been written, or has not. -/
def answer (path : Text) (old new : List Text) : Except Fault Unit → Session Unit
  | .ok () => printLines (reportLines (tidy path) old new)
  | .error (.storage e) => do
    printLine ("❌ Error writing whitelist file " ++ path ++ ": " ++ e.message)
    exit 1
  | .error f => fail f

theorem generate_eq (patterns : List Text) (path : Text) (append : Bool) : generate patterns path append false = (do
      let new ← matching patterns
      let old ← oldNames path append
      let result ← attempt (do
        makeDirectories (parent (tidy path))
        writeLines (tidy path) (render old new))
      answer path old new result) := by
  cases append <;> rfl

theorem runIn_answer_eq_ok {result : Except Fault Unit}
    (h : runIn w (answer path old new result) = (.ok (), w')) : result = .ok () ∧ SameFiles w w' := by
  cases result with
  | error f => cases f <;> cases h
  | ok u => exact ⟨rfl, Keeps.of_eq_ok (.forM .printLine _) h⟩

/-- A workspace in which the text of a file has been replaced, and nothing else. -/
structure Rewrites (w w' : Workspace) (name text : Text) : Prop where
  cwd : w'.cwd = w.cwd
  blank : w'.store.blank = w.store.blank
  content : w'.store.content? w'.cwd name = some text
  grounded : w'.store.IsGrounded w'.cwd

theorem Rewrites.of_write {pieces : List Text} (hground : w.store.IsGrounded w.cwd)
    (htext : w.store.content? w.cwd name = some text) (hok : (w.store.write w.cwd name pieces).2 = .ok ())
    (hstore : w'.store = (w.store.write w.cwd name pieces).1) (hcwd : w'.cwd = w.cwd) :
    Rewrites w w' name pieces.flatten := by
  obtain ⟨hname, p, age, hlocate⟩ := Store.content?_eq_some_iff.mp htext
  have hentry := (Store.of_locate_eq_ok hlocate).2.2.2
  refine ⟨hcwd, ?_, ?_, ?_⟩
  · rw [hstore, Store.write, hname, hlocate]
    exact w.store.blank_put hentry.symm _ _
  · rw [hstore, hcwd]
    exact Store.content?_of_write_ok (.inr hground) hok
  · rw [hstore, hcwd]
    exact (Store.keepsTree_write _).isGrounded hground

/-- Writing over a file, where nothing is left to be done about the directories above it. -/
theorem runIn_save {v : Workspace} (hsame : SameFiles w v)
    (htext : w.store.content? w.cwd (tidy path) = some text) (lines : List Text)
    {r : Store × Except Fault Unit}
    (hr : w.store.write w.cwd (tidy path) (lines.map (· ++ ofString "\n")) = r) :
    runIn v (attempt (do
      makeDirectories (parent (tidy path))
      writeLines (tidy path) lines)) = (.ok r.2, { v with store := r.1 }) := by
  have hmade : v.store.makeDirectories v.cwd (parent (tidy path)) = .ok v.store := by
    rw [hsame.store, hsame.cwd]
    exact Store.makeDirectories_above htext
  have hrun : runIn v (makeDirectories (parent (tidy path))) = (.ok (), v) := by
    rw [runIn_makeDirectories, hmade]
  rw [runIn_attempt, runIn_bind_of_ok hrun, runIn_writeLines, runIn_writePieces, hsame.store, hsame.cwd, hr]
  cases r.2 <;> rfl

/-- **A whitelist is generated exactly if its names can be encoded**, and then it takes the place of the old one. -/
theorem generate_iff {patterns : List Text} (hground : w.store.IsGrounded w.cwd)
    (htext : w.store.content? w.cwd (tidy path) = some text)
    (hnew : runIn w (matching patterns) = (.ok new, w)) (append : Bool) :
    ∃ old, (∀ name, name ∈ old ↔ IsKept w path append ∧ name ∈ entries (normalizeBreaks text)) ∧
      ((∃ w', runIn w (generate patterns path append false) = (.ok (), w')) ↔
        ∀ name ∈ merged old new, isEncodable name = true) ∧
      ∀ w', runIn w (generate patterns path append false) = (.ok (), w') →
        Rewrites w w' (tidy path) (written old new) := by
  obtain ⟨old, v, hold, hsame, hmem⟩ := runIn_oldNames htext append
  refine ⟨old, hmem, ?_⟩
  generalize hwrite : w.store.write w.cwd (tidy path) ((render old new).map (· ++ ofString "\n")) = r
  have hencodable : r.2 = .ok () ↔ ∀ name ∈ merged old new, isEncodable name = true := by
    obtain ⟨hname, p, age, hlocate⟩ := Store.content?_eq_some_iff.mp htext
    have hwritable : w.store.IsWritable w.cwd (tidy path) := ⟨hname, p, _, hlocate, fun _ h => by cases h⟩
    simp only [← hwrite, Store.write_eq_ok_iff, hwritable, true_and, forall_mem_map, isEncodable_append,
      isEncodable_ofString, Bool.and_true, isEncodable_render]
  rw [generate_eq, runIn_bind_of_ok hnew, runIn_bind_of_ok hold, runIn_bind_of_ok (runIn_save hsame htext _ hwrite),
    ← hencodable]
  constructor
  · constructor
    · rintro ⟨w', hw'⟩
      exact (runIn_answer_eq_ok hw').1
    · intro hok
      rw [hok]
      exact ⟨_, runIn_printLines _ _⟩
  · intro w' hw'
    obtain ⟨hok, hkept⟩ := runIn_answer_eq_ok hw'
    subst hwrite
    exact .of_write hground htext hok hkept.store (hkept.cwd.trans hsame.cwd)

/-! ## What is the same in a workspace with another text -/

section

variable {s s' : Store} (h : s'.blank = s.blank) (cwd : Place)
include h

theorem resolve_congr (name : Text) : s'.resolve cwd name = s.resolve cwd name := by
  rw [← Store.resolve_blank, h, Store.resolve_blank]

theorem matched_congr (patterns : List Text) : matched s' cwd patterns = matched s cwd patterns :=
  flatMap_congr fun pattern _ => by
    rw [Store.glob, Store.glob, ← Store.globFrom_blank, h, Store.globFrom_blank]

theorem isSome_content?_congr (name : Text) : (s'.content? cwd name).isSome = (s.content? cwd name).isSome := by
  have hblank (t : Store) : (t.blank.content? cwd name).isSome = (t.content? cwd name).isSome := by
    rw [Store.content?, Store.content?, Store.find?_blank]
    rcases Store.checkName name with f | u
    · rfl
    · rcases t.find? cwd name with _ | (⟨text, age⟩ | ⟨age⟩ | ⟨target⟩) <;> rfl
  rw [← hblank, h, hblank]

end

/-- The files that the lines of a whitelist name, in a workspace in which only its text has been replaced. -/
theorem Rewrites.loads (h : Rewrites w w' (tidy path) text)
    (hload : ∀ line ∈ entries (normalizeBreaks text), IsLoadable w.store w.cwd line) (hP : ∀ place, P place ↔
      ∃ line ∈ entries (normalizeBreaks text), w.store.resolve w.cwd line = .ok place) : Loads w' path P := by
  refine (loads_iff h.content).mpr ?_
  simp only [IsLoadable, h.cwd, resolve_congr h.blank]
  exact ⟨hload, hP⟩

end Whitelist

/-! ## Collecting -/

namespace Session

variable {α β : Type} {w : Workspace}

/-- An action that keeps the files of a workspace, and whose results there have a property. -/
def GivesIn (w : Workspace) (P : α → Prop) (x : Session α) : Prop :=
  ∀ ⦃v a v'⦄, SameFiles w v → runIn v x = (.ok a, v') → SameFiles w v' ∧ P a

namespace GivesIn

variable {x : Session α} {f : α → Session β} {P : β → Prop}

theorem pure {P : α → Prop} {a : α} (h : P a) : GivesIn w P (pure a) := by
  intro v b v' hv hb
  cases hb
  exact ⟨hv, h⟩

theorem bind {Q : α → Prop} (hx : GivesIn w Q x) (hf : ∀ a, Q a → GivesIn w P (f a)) : GivesIn w P (x >>= f) := by
  intro v b v' hv hb
  obtain ⟨a, u, ha, hb⟩ := runIn_bind_eq_ok.mp hb
  obtain ⟨hu, hQ⟩ := hx hv ha
  exact hf a hQ hu hb

theorem after (hx : Keeps SameFiles x)
    (hf : ∀ a, GivesIn w P (f a)) : GivesIn w P (x >>= f) :=
  .bind (Q := fun _ => True) (fun _ _ _ hv ha => ⟨hv.trans (hx.of_eq_ok ha), trivial⟩) fun a _ => hf a

theorem ite {P : α → Prop} {c : Prop} [Decidable c] {y : Session α} (hx : GivesIn w P x) (hy : GivesIn w P y) :
    GivesIn w P (if c then x else y) := by
  split
  · exact hx
  · exact hy

/-- What each step of a loop keeps, the whole loop keeps. -/
theorem foldlM {f : β → α → Session β} (hf : ∀ b a, P b → GivesIn w P (f b a)) (xs : List α) {b : β}
    (hb : P b) : GivesIn w P (xs.foldlM f b) := by
  induction xs generalizing b with
  | nil => exact pure hb
  | cons x xs ih =>
    rw [foldlM_cons]
    exact bind (hf b x hb) fun b' hb' => ih hb'

end GivesIn

end Session

namespace Collect

/-- The files that are chosen have places that a whitelist does not name. -/
def Spares (w : Workspace) (whitelist : List Place) (c : Collected) : Prop :=
  ∀ file ∈ c.chosen, ∃ place, w.store.resolve w.cwd file = .ok place ∧ place ∉ whitelist

variable {w : Workspace} {whitelist : List Place}

theorem spares_nil : Spares w whitelist {} := fun _ h => absurd h not_mem_nil

theorem spares_add {c : Collected} (hc : Spares w whitelist c) (name : Text) :
    GivesIn w (Spares w whitelist) (add whitelist c name) := by
  have hresolve : GivesIn w (fun place => w.store.resolve w.cwd name = .ok place) (resolve name) := by
    intro v place v' hv hplace
    rw [runIn_resolve, runIn_lift_eq_ok, hv.store, hv.cwd] at hplace
    exact ⟨hplace.2 ▸ hv, hplace.1⟩
  refine .bind hresolve fun place hplace => ?_
  split
  · exact .after (.printLine _) fun _ => .pure hc
  · next hout =>
    refine .pure fun file hfile => ?_
    obtain hfile | hfile := mem_append.mp hfile
    · exact hc file hfile
    · exact ⟨place, mem_singleton.mp hfile ▸ hplace, by simpa using hout⟩

/-- **The files that are chosen are not among those that a whitelist names.** -/
theorem spares_run (names : List Text) (patterns : Text) (verbose : Bool) :
    GivesIn w (Spares w whitelist) (run whitelist names patterns verbose) := by
  have hnamed : GivesIn w (Spares w whitelist) (named whitelist names) :=
    .foldlM (fun c name hc => .after (.checkedExists _) fun _ => .ite (spares_add hc _)
      (.after (.printLine _) fun _ => .pure hc)) names spares_nil
  have hfound : GivesIn w (Spares w whitelist) (found whitelist patterns) :=
    .foldlM (fun c pattern hc => .after (.glob _) fun files => .foldlM (fun c name hc =>
      .after (.checkedExists _) fun _ => .ite (spares_add hc _) (.pure hc)) files hc) _ spares_nil
  have hend (c : Collected) (hc : Spares w whitelist c) : GivesIn w (Spares w whitelist) (do
      if !c.whitelisted.isEmpty && verbose then
        printLine ("\n📊 Whitelist Summary: " ++ natText c.whitelisted.length ++ " files skipped")
      return c) := .ite (.after (.printLine _) fun _ => .pure hc) (.pure hc)
  exact .ite (.bind hnamed hend) (.ite (.bind hfound hend) (.bind (.pure spares_nil) hend))

end Collect

/-! ## Generated whitelists -/

namespace Whitelist

variable {w : Workspace} {path text name : Text}

/-- The names of a generated whitelist: those of the files that match, and those that are kept. -/
def IsNamed (w : Workspace) (path text : Text) (patterns : List Text) (append : Bool) (name : Text) : Prop :=
  IsRecorded w.store w.cwd patterns name ∨ IsKept w path append ∧ name ∈ entries (normalizeBreaks text)

/-- A whitelist is generated exactly if its names can be encoded, and then these are the names that are read from it. -/
theorem generate_names {patterns : List Text} (hground : w.store.IsGrounded w.cwd)
    (htext : w.store.content? w.cwd (tidy path) = some text)
    (hmatched : AreRecordable w.store w.cwd patterns) (append : Bool) :
    ((∃ w', runIn w (generate patterns path append false) = (.ok (), w')) ↔
      ∀ name, IsNamed w path text patterns append name → isEncodable name = true) ∧
    ∀ w', runIn w (generate patterns path append false) = (.ok (), w') → ∃ text', Rewrites w w' (tidy path) text' ∧
        ∀ name, name ∈ entries (normalizeBreaks text') ↔ IsNamed w path text patterns append name := by
  obtain ⟨new, hnew, hrecorded⟩ := runIn_matching hmatched
  obtain ⟨old, hold, hiff, hrewrites⟩ := generate_iff hground htext hnew append
  have hmem (name : Text) : name ∈ merged old new ↔ IsNamed w path text patterns append name := by
    rw [mem_merged, hold, hrecorded, IsNamed, or_comm]
  refine ⟨by simp only [hiff, hmem], fun w' hw' => ⟨written old new, hrewrites w' hw', fun name => ?_⟩⟩
  rw [entries_written, hmem]
  intro name hname
  obtain ⟨file, hfile, place, hplace, rfl⟩ | ⟨-, hname⟩ := (hmem name).mp hname
  · obtain ⟨place', hplace', hentry⟩ := hmatched.files file hfile
    cases hplace.symm.trans hplace'
    exact hentry
  · exact isEntry_of_mem_entries (return_not_mem_normalizeBreaks text) hname

namespace Rewrites

variable {w' w'' : Workspace} {text' : Text} {patterns : List Text}

theorem trans (h : Rewrites w w' name text) (h' : Rewrites w' w'' name text') :
    Rewrites w w'' name text' := ⟨h'.cwd.trans h.cwd, h'.blank.trans h.blank, h'.content, h'.grounded⟩

theorem areRecordable (h : Rewrites w w' name text) (hmatched : AreRecordable w.store w.cwd patterns) :
    AreRecordable w'.store w'.cwd patterns := by
  refine ⟨hmatched.usable, ?_⟩
  simp only [h.cwd, matched_congr h.blank, resolve_congr h.blank]
  exact hmatched.files

/-- A whitelist that has been added to names the same if it is added to again. -/
theorem isNamed_iff (h : Rewrites w w' (tidy path) text')
    (htext : ∀ name, name ∈ entries (normalizeBreaks text') ↔ IsNamed w path text patterns true name)
    (name : Text) : IsNamed w' path text' patterns true name ↔ IsNamed w path text patterns true name := by
  have hrecorded : IsRecorded w'.store w'.cwd patterns name ↔ IsRecorded w.store w.cwd patterns name := by
    simp only [IsRecorded, h.cwd, matched_congr h.blank, resolve_congr h.blank]
  have hkept : IsKept w' path true ↔ IsKept w path true := by
    simp only [IsKept, h.cwd, isSome_content?_congr h.blank]
  rw [IsNamed, hrecorded, hkept, htext, IsNamed]
  grind

end Rewrites

section

variable {patterns : List Text} {append : Bool} {before : List Place} (hground : w.store.IsGrounded w.cwd)
  (hlinks : w.store.HasPossibleLinks) (htext : w.store.content? w.cwd (tidy path) = some text)
include htext

/-- What the lines that are kept stand for, by what the whitelist named before. -/
theorem IsKept.lines (hkept : IsKept w path append)
    (hbefore : append = true → ∃ v, runIn w (load path) = (.ok before, v)) :
    (∀ line ∈ entries (normalizeBreaks text), IsLoadable w.store w.cwd line) ∧ ∀ place, place ∈ before ↔
      ∃ line ∈ entries (normalizeBreaks text), w.store.resolve w.cwd line = .ok place := by
  obtain ⟨v, hv⟩ := hbefore hkept.1
  exact (loads_iff htext).mp ⟨before, v, hv, fun _ => Iff.rfl⟩

include hground hlinks

/-- A whitelist with the right names names the right files. -/
theorem loads_of_isNamed (hbefore : append = true → ∃ v, runIn w (load path) = (.ok before, v)) {v : Workspace}
    {text' : Text} (hv : Rewrites w v (tidy path) text')
    (hnames : ∀ name, name ∈ entries (normalizeBreaks text') ↔ IsNamed w path text patterns append name) :
    Loads v path fun place => IsMatched w.store w.cwd patterns place ∨ IsKept w path append ∧ place ∈ before := by
  refine hv.loads (fun name hname => ?_) fun place => ?_
  · obtain ⟨file, -, place, hplace, rfl⟩ | ⟨hkept, hname⟩ := (hnames name).mp hname
    · rw [IsLoadable, resolve_recordedAs hground hlinks hplace]
      exact fun _ h => by cases h
    · exact (hkept.lines htext hbefore).1 name hname
  simp only [hnames]
  constructor
  · rintro (⟨file, hfile, hplace⟩ | ⟨hkept, hplace⟩)
    · exact ⟨_, .inl ⟨file, hfile, place, hplace, rfl⟩, resolve_recordedAs hground hlinks hplace⟩
    · obtain ⟨line, hline, hplace⟩ := ((hkept.lines htext hbefore).2 place).mp hplace
      exact ⟨line, .inr ⟨hkept, hline⟩, hplace⟩
  · rintro ⟨name, ⟨file, hfile, place', hplace', rfl⟩ | ⟨hkept, hname⟩, hplace⟩
    · rw [resolve_recordedAs hground hlinks hplace'] at hplace
      cases hplace
      exact .inl ⟨file, hfile, hplace'⟩
    · exact .inr ⟨hkept, ((hkept.lines htext hbefore).2 place).mpr ⟨name, hname, hplace⟩⟩

end

/-- **Generated whitelists name what they should.** A whitelist is generated for the files that match some patterns,
under the name of an existing one. This succeeds exactly if all names can be encoded. Then the whitelist names the
files that match, and also those that the existing one named if it is added to and is opened under the very name that
is given. Adding the same files again changes nothing, and none of the files that match is linted. -/
theorem generated_whitelist_loads {w : Workspace} {path text : Text} {patterns : List Text} {append : Bool}
    {before : List Place} (hground : w.store.IsGrounded w.cwd) (hlinks : w.store.HasPossibleLinks)
    (htext : w.store.content? w.cwd (tidy path) = some text)
    (hmatched : AreRecordable w.store w.cwd patterns)
    (hbefore : append = true → ∃ v, runIn w (load path) = (.ok before, v)) :
    ((∃ w', runIn w (generate patterns path append false) = (.ok (), w')) ↔
      ∀ name, IsNamed w path text patterns append name → isEncodable name = true) ∧
    ∀ w', runIn w (generate patterns path append false) = (.ok (), w') →
      Loads w' path (fun place => IsMatched w.store w.cwd patterns place ∨ IsKept w path append ∧ place ∈ before) ∧
      (append = true → ∃ w'', runIn w' (generate patterns path true false) = (.ok (), w'') ∧
        Loads w'' path fun place => IsMatched w.store w.cwd patterns place ∨ IsKept w path append ∧ place ∈ before) ∧
      ∀ {places v names files verbose c u}, runIn w' (load path) = (.ok places, v) →
        runIn v (Collect.run places names files verbose) = (.ok c, u) →
        ∀ file ∈ c.chosen, ∀ place, w.store.resolve w.cwd file = .ok place →
          ¬ IsMatched w.store w.cwd patterns place := by
  obtain ⟨hiff, hwritten⟩ := generate_names hground htext hmatched append
  refine ⟨hiff, fun w' hw' => ?_⟩
  obtain ⟨text', hw, hnames⟩ := hwritten w' hw'
  have hloads := loads_of_isNamed hground hlinks htext hbefore hw hnames
  refine ⟨hloads, ?_, ?_⟩
  · rintro rfl
    obtain ⟨hiff', hwritten'⟩ := generate_names hw.grounded hw.content (hw.areRecordable hmatched) true
    have hagain := hw.isNamed_iff hnames
    obtain ⟨w'', hw''⟩ := hiff'.mpr fun name hname => hiff.mp ⟨w', hw'⟩ name ((hagain name).mp hname)
    obtain ⟨text'', hnext, hnames'⟩ := hwritten' w'' hw''
    exact ⟨w'', hw'', loads_of_isNamed hground hlinks htext hbefore (hw.trans hnext)
      fun name => (hnames' name).trans (hagain name)⟩
  · intro places v names files verbose c u hrun hc file hfile place hplace hmatch
    obtain ⟨loaded, v', hloaded, hmem⟩ := hloads
    cases hloaded.symm.trans hrun
    obtain ⟨-, hspares⟩ := Collect.spares_run names files verbose (Keeps.of_eq_ok (keeps_load path) hrun) hc
    obtain ⟨place', hplace', hout⟩ := hspares file hfile
    rw [hw.cwd, resolve_congr hw.blank, hplace] at hplace'
    cases hplace'
    exact hout ((hmem place).mpr (.inl hmatch))

/-- Two views, and a whitelist that names the first of them. -/
def twoViews : Workspace where
  store := ⟨[([ofString "wl.txt"], .file "a/view.json\n" (.ofInt 60)),
    ([ofString "a"], .directory (.ofInt 60)), ([ofString "a", "view.json"], .file "[]" (.ofInt 60)),
    ([ofString "b"], .directory (.ofInt 60)), ([ofString "b", "view.json"], .file "[]" (.ofInt 60))]⟩
  cwd := []

theorem cwd_twoViews : twoViews.cwd = [] := rfl

theorem matched_twoViews : matched twoViews.store [] ["b/*"] = [ofString "b/view.json"] := by decide +kernel

theorem resolve_twoViews : twoViews.store.resolve [] "b/view.json" = .ok ["b", "view.json"] := by decide +kernel

theorem areRecordable_twoViews : AreRecordable twoViews.store [] ["b/*"] := by
  refine ⟨fun pattern hpattern _ => ?_, fun file hfile => ?_⟩
  · rw [mem_singleton.mp hpattern]
    rfl
  · rw [matched_twoViews, mem_singleton] at hfile
    exact ⟨_, hfile ▸ resolve_twoViews, hfile ▸ ⟨by decide, by decide, by decide, by decide, by decide⟩⟩

theorem isNamed_twoViews {path : Text} : IsNamed twoViews path "a/view.json\n" ["b/*"] true name ↔
    name = "b/view.json" ∨ IsKept twoViews path true ∧ name = "a/view.json" := by
  have hentries : entries (normalizeBreaks "a/view.json\n") = [ofString "a/view.json"] := by decide
  have hname : recordedAs [] ["b", "view.json"] "b/view.json" = "b/view.json" := by decide
  simp [IsNamed, IsRecorded, cwd_twoViews, matched_twoViews, resolve_twoViews, hname, hentries]

theorem isEncodable_twoViews {path : Text} (h : IsNamed twoViews path "a/view.json\n" ["b/*"] true name) :
    isEncodable name = true := by
  obtain rfl | ⟨-, rfl⟩ := isNamed_twoViews.mp h <;> decide

/-- The second view is added to the whitelist, and the first is kept. -/
theorem generated_whitelist_loads_twoViews :
    ∃ w', runIn twoViews (generate ["b/*"] "wl.txt" true false) = (.ok (), w') ∧
      Loads w' "wl.txt" fun place => place = ["b", "view.json"] ∨ place = ["a", "view.json"] := by
  have hlinks : twoViews.store.HasPossibleLinks := by
    intro p target h
    rw [Store.entry?] at h
    split at h
    · cases h
    · have hmem := Fields.mem_of_get?_eq_some h
      simp [twoViews] at hmem
  have hbefore : ∃ v, runIn twoViews (load "wl.txt") = (.ok [["a", "view.json"]], v) :=
    runIn_eq_ok_iff.mpr (by decide +kernel)
  have htext : twoViews.store.content? [] (tidy "wl.txt") = some (ofString "a/view.json\n") := by
    decide +kernel
  obtain ⟨hiff, hloads⟩ := generated_whitelist_loads Store.isGrounded_root hlinks htext areRecordable_twoViews
    fun _ => hbefore
  obtain ⟨w', hrun⟩ := hiff.mpr fun name hname => isEncodable_twoViews hname
  obtain ⟨places, v, hload, hplaces⟩ := (hloads w' hrun).1
  refine ⟨w', hrun, places, v, hload, fun place => (hplaces place).trans ?_⟩
  have hkept : IsKept twoViews "wl.txt" true := ⟨rfl, by decide +kernel⟩
  simp [IsMatched, cwd_twoViews, matched_twoViews, resolve_twoViews, hkept, eq_comm]

/-- **The old names are lost** if a whitelist is added to under a name that ends in a slash. -/
theorem whitelist_names_lost_twoViews : Loads twoViews "wl.txt/" (fun place => place = ["a", "view.json"]) ∧
      ∃ w', runIn twoViews (generate ["b/*"] "wl.txt/" true false) = (.ok (), w') ∧
        Loads w' "wl.txt/" fun place => place = ["b", "view.json"] := by
  have hbefore : ∃ v, runIn twoViews (load "wl.txt/") = (.ok [["a", "view.json"]], v) :=
    runIn_eq_ok_iff.mpr (by decide +kernel)
  have htext : twoViews.store.content? [] (tidy "wl.txt/") = some (ofString "a/view.json\n") := by
    decide +kernel
  have hlost : ¬ IsKept twoViews "wl.txt/" true := by
    rintro ⟨-, hopened⟩
    revert hopened
    decide +kernel
  obtain ⟨v, hbefore⟩ := hbefore
  obtain ⟨hiff, hwritten⟩ := generate_names Store.isGrounded_root htext areRecordable_twoViews true
  obtain ⟨w', hrun⟩ := hiff.mpr fun name hname => isEncodable_twoViews hname
  obtain ⟨text, hw, htext⟩ := hwritten w' hrun
  simp only [isNamed_twoViews, hlost, false_and, or_false] at htext
  refine ⟨⟨_, v, hbefore, fun place => mem_singleton⟩, w', hrun, hw.loads ?_ fun place => ?_⟩
  · simp [htext, IsLoadable, cwd_twoViews, resolve_twoViews]
  · simp [htext, cwd_twoViews, resolve_twoViews, eq_comm]

end Whitelist

end ViewLint
