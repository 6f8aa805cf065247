import ViewLint.Proofs.Cutting
import ViewLint.Proofs.Pieces
import ViewLint.ScriptCheck.Combine

/-!
# The lines of scripts that are put together

Each line of the text for the script checker comes from a line of a function, or from what stands around
the functions.

* `ScriptCheck.origins`: where the lines come from.
* **`ScriptCheck.ownerOf?_of_origin`**, **`ScriptCheck.startOf?_of_origin`**: the script of a line, and the
  first of its lines.
-/

namespace ViewLint

open List

namespace Text

/-- The lines of a text, cut at line feeds only. -/
def rows (s : Text) : List Text := splitOn "\n" s

def row? (s : Text) : Nat → Option Text
  | 0 => none
  | n + 1 => (rows s)[n]?

theorem rows_append (a r : Text) : rows (a ++ "\n" ++ r) = rows a ++ rows r := by
  rw [append_assoc]
  exact splitOn_append_stop _ a r

theorem rows_of_not_mem {s : Text} (h : .char '\n' ∉ s) : rows s = [s] := splitOn_of_not_mem h

theorem rows_join {pieces : List Text} (h : pieces ≠ []) : rows (join "\n" pieces) = pieces.flatMap rows :=
  splitOn_join h

theorem length_rows (s : Text) : (rows s).length = occurrences "\n" s + 1 := by
  have := length_pos_iff.mpr (splitOn_ne_nil "\n" s)
  rw [rows, occurrences]
  omega

end Text

namespace ScriptCheck

open Text

/-! ## Where the lines come from -/

/-- A line of the function with a key, counted from its header. -/
structure Origin where
  key : Text
  line : Nat

variable {fs : List (Text × Text)} {o : Origin} {i : Nat} {key : Text}

/-- The number of lines above a function. -/
def headerSize (key : Text) : Nat := if holds key "::" then 2 else 1

/-- Where the lines of a function with its header come from, and the empty line below. -/
def blockOrigins (f : Text × Text) : List (Option Origin) :=
  List.replicate (headerSize f.1) none ++ (List.range (rows f.2).length).map (fun i => some ⟨f.1, i + 1⟩) ++ [none]

/-- Where the lines of functions that are put together come from. -/
def origins (fs : List (Text × Text)) : List (Option Origin) :=
  List.replicate preamble.length none ++ fs.flatMap blockOrigins

/-- Where a line comes from, counted from one; none if it comes from no function. -/
def origin? (fs : List (Text × Text)) : Nat → Option Origin
  | 0 => none
  | n + 1 => ((origins fs)[n]?).join

theorem origin?_eq_some_iff {n : Nat} : origin? fs n = some o ↔ ∃ i, n = i + 1 ∧ (origins fs)[i]? = some (some o) := by
  cases n with
  | zero => simp [origin?]
  | succ i => simp [origin?, Option.join_eq_some_iff]

/-- Functions put together. -/
def drafted (fs : List (Text × Text)) : Draft := fs.foldl (fun d f => d.add f.1 f.2) {}

theorem origins_concat (fs : List (Text × Text)) (f : Text × Text) :
    origins (fs ++ [f]) = origins fs ++ blockOrigins f := by
  simp [origins]

theorem drafted_concat (fs : List (Text × Text)) (f : Text × Text) :
    drafted (fs ++ [f]) = (drafted fs).add f.1 f.2 := by
  simp [drafted]

theorem length_blockOrigins (f : Text × Text) : (blockOrigins f).length = headerSize f.1 + (rows f.2).length + 1 := by
  simp [blockOrigins, Nat.add_assoc]

theorem getElem?_blockOrigins_iff {f : Text × Text} {k : Nat} : (blockOrigins f)[k]? = some (some o) ↔
      ∃ j < (rows f.2).length, o = ⟨f.1, j + 1⟩ ∧ k = headerSize f.1 + j := by
  have hlast (j : Nat) : ([none] : List (Option Origin))[j]? ≠ some (some o) := by
    cases j <;> simp
  rw [blockOrigins, append_assoc]
  by_cases hk : k < headerSize f.1
  · rw [getElem?_append_left (by simpa using hk), getElem?_replicate, if_pos hk]
    refine ⟨fun h => (by cases h), ?_⟩
    rintro ⟨j, -, -, rfl⟩
    omega
  · obtain ⟨i, rfl⟩ := Nat.exists_eq_add_of_le (Nat.le_of_not_lt hk)
    rw [getElem?_append_right (by simp), length_replicate, Nat.add_sub_cancel_left]
    by_cases hi : i < (rows f.2).length
    · rw [getElem?_append_left (by simpa using hi), getElem?_map, getElem?_range hi]
      constructor
      · rintro ⟨⟩
        exact ⟨i, hi, rfl, rfl⟩
      · rintro ⟨j, -, rfl, hj⟩
        obtain rfl : i = j := by omega
        rfl
    · rw [getElem?_append_right (by simpa using hi)]
      refine ⟨fun h => absurd h (hlast _), ?_⟩
      rintro ⟨j, hj, -, hk⟩
      omega

/-- A line comes from the functions so far, or from the last one. -/
theorem getElem?_origins_concat_iff {f : Text × Text} :
    (origins (fs ++ [f]))[i]? = some (some o) ↔ (origins fs)[i]? = some (some o) ∨
      ∃ j < (rows f.2).length, o = ⟨f.1, j + 1⟩ ∧ i = (origins fs).length + headerSize f.1 + j := by
  rw [origins_concat]
  by_cases hi : i < (origins fs).length
  · rw [getElem?_append_left hi]
    refine ⟨.inl, ?_⟩
    rintro (h | ⟨j, -, -, rfl⟩)
    · exact h
    · omega
  · obtain ⟨k, rfl⟩ := Nat.exists_eq_add_of_le (Nat.le_of_not_lt hi)
    rw [getElem?_append_right (Nat.le_add_right _ _), Nat.add_sub_cancel_left, getElem?_blockOrigins_iff,
      getElem?_eq_none (Nat.le_add_right _ _)]
    simp [Nat.add_assoc]

theorem getElem?_origins_nil : (origins [])[i]? ≠ some (some o) := by
  intro h
  simp [origins, getElem?_replicate] at h

/-! ## What is counted, and what is read -/

theorem headerSize_eq (d : Draft) (key : Text) : (d.header key).2.1 = headerSize key := by
  rw [Draft.header, headerSize, holds]
  cases cut? "::" key <;> rfl

theorem next_drafted (fs : List (Text × Text)) : (drafted fs).next = (origins fs).length + 1 := by
  induction fs using reverseRecOn with
  | nil => rfl
  | append_singleton fs f ih =>
    rw [drafted_concat, origins_concat, length_append, length_blockOrigins, length_rows]
    have hadd : ((drafted fs).add f.1 f.2).next =
        (drafted fs).next + ((drafted fs).header f.1).2.1 + (occurrences "\n" f.2 + 1) + 1 := rfl
    rw [hadd, headerSize_eq, ih]
    omega

theorem mem_owners_iff {n : Int} : (n, key) ∈ (drafted fs).owners ↔
      ∃ i line, n = ((i + 1 : Nat) : Int) ∧ (origins fs)[i]? = some (some ⟨key, line⟩) := by
  induction fs using reverseRecOn with
  | nil =>
    refine ⟨fun h => (by cases h), ?_⟩
    rintro ⟨i, line, -, h⟩
    exact absurd h getElem?_origins_nil
  | append_singleton fs f ih =>
    have hadd : ((drafted fs).add f.1 f.2).owners = (drafted fs).owners ++
        (range (occurrences "\n" f.2 + 1)).map fun (i : Nat) =>
          ((((drafted fs).next + ((drafted fs).header f.1).2.1 + i : Nat) : Int), f.1) := rfl
    rw [drafted_concat, hadd, mem_append, ih, mem_map, headerSize_eq, next_drafted, ← length_rows]
    simp only [getElem?_origins_concat_iff, mem_range, Prod.mk.injEq, Origin.mk.injEq]
    constructor
    · rintro (⟨i, line, hn, h⟩ | ⟨j, hj, hn, rfl⟩)
      · exact ⟨i, line, hn, .inl h⟩
      · exact ⟨(origins fs).length + headerSize f.1 + j, j + 1, by omega, .inr ⟨j, hj, ⟨rfl, rfl⟩, rfl⟩⟩
    · rintro ⟨i, line, hn, h | ⟨j, hj, ⟨rfl, -⟩, rfl⟩⟩
      · exact .inl ⟨i, line, hn, h⟩
      · exact .inr ⟨j, hj, by omega, rfl⟩

theorem length_rows_header (d : Draft) (hkey : .char '\n' ∉ key) : (rows (d.header key).1).length = headerSize key := by
  have hscript (n : Nat) {rest : Text} (hrest : .char '\n' ∉ rest) :
      .char '\n' ∉ ("# Script " ++ natText n ++ ": " ++ rest : Text) := by
    simp only [mem_append, not_or]
    exact ⟨⟨⟨by decide, not_mem_natText '\n' rfl n⟩, by decide⟩, hrest⟩
  rw [Draft.header, headerSize, holds]
  cases hcut : cut? "::" key with
  | none => exact congrArg length (rows_of_not_mem (hscript _ hkey))
  | some cut =>
    obtain ⟨file, path⟩ := cut
    rw [cut?_eq_some hcut] at hkey
    simp only [mem_append, not_or] at hkey
    have hfile : .char '\n' ∉ ("# File: " : Text) ++ file := by
      simp only [mem_append, not_or]
      exact ⟨by decide, hkey.1.1⟩
    have hheader (number : Nat) : ("# File: " ++ file ++ "\n# Script " ++ natText number ++ ": " ++ path : Text) =
          ("# File: " ++ file) ++ "\n" ++ ("# Script " ++ natText number ++ ": " ++ path) := by
      have hbreak : ("\n# Script " : Text) = "\n" ++ "# Script " := rfl
      simp only [hbreak, append_assoc]
    simp only [hheader, rows_append, rows_of_not_mem hfile, rows_of_not_mem (hscript _ hkey.2)]
    rfl

/-- The lines of functions that are put together. -/
def draftedRows (fs : List (Text × Text)) : List Text := (drafted fs).pieces.flatMap rows

theorem draftedRows_concat (fs : List (Text × Text)) (f : Text × Text) :
    draftedRows (fs ++ [f]) = draftedRows fs ++ (rows ((drafted fs).header f.1).1 ++ (rows f.2 ++ [[]])) := by
  have hadd : ((drafted fs).add f.1 f.2).pieces = (drafted fs).pieces ++ [((drafted fs).header f.1).1, f.2, ""] := rfl
  rw [draftedRows, drafted_concat, hadd, flatMap_append]
  rfl

theorem rows_pieces (fs : List (Text × Text)) : rows (join "\n" (drafted fs).pieces) = draftedRows fs := by
  refine rows_join ?_
  induction fs using reverseRecOn with
  | nil => exact cons_ne_nil _ _
  | append_singleton fs f ih =>
    rw [drafted_concat]
    exact append_ne_nil_of_right_ne_nil _ (cons_ne_nil _ _)

theorem length_draftedRows (hkeys : ∀ f ∈ fs, .char '\n' ∉ f.1) : (draftedRows fs).length = (origins fs).length := by
  induction fs using reverseRecOn with
  | nil => decide +kernel
  | append_singleton fs f ih =>
    rw [draftedRows_concat, origins_concat, length_append, length_append, length_append,
      length_append, length_blockOrigins, length_rows_header _ (hkeys f (by simp)),
      ih fun g hg => hkeys g (mem_append_left _ hg), length_singleton, Nat.add_assoc (headerSize f.1)]

theorem row_of_origin (hkeys : ∀ f ∈ fs, .char '\n' ∉ f.1) (ho : (origins fs)[i]? = some (some o)) :
    ∃ f ∈ fs, f.1 = o.key ∧ ∃ row, (draftedRows fs)[i]? = some row ∧ row? f.2 o.line = some row := by
  induction fs using reverseRecOn with
  | nil => exact absurd ho getElem?_origins_nil
  | append_singleton fs f ih =>
    have hkeys' : ∀ g ∈ fs, .char '\n' ∉ g.1 := fun g hg => hkeys g (mem_append_left _ hg)
    have hlength := length_draftedRows hkeys'
    rw [draftedRows_concat]
    obtain ho | ⟨j, hj, rfl, rfl⟩ := getElem?_origins_concat_iff.mp ho
    · obtain ⟨g, hg, hkey, row, hrow, hrow'⟩ := ih hkeys' ho
      refine ⟨g, mem_append_left _ hg, hkey, row, ?_, hrow'⟩
      rw [getElem?_append_left (List.getElem?_eq_some_iff.mp hrow).1, hrow]
    · refine ⟨f, by simp, rfl, (rows f.2)[j], ?_, getElem?_eq_getElem hj⟩
      rw [← hlength, Nat.add_assoc, getElem?_append_right (Nat.le_add_right _ _), Nat.add_sub_cancel_left,
        ← length_rows_header (drafted fs) (hkeys f (by simp)), getElem?_append_right (Nat.le_add_right _ _),
        Nat.add_sub_cancel_left, getElem?_append_left hj, getElem?_eq_getElem hj]

/-! ## The script of a line -/

theorem key_of_origin (ho : (origins fs)[i]? = some (some o)) : o.key ∈ fs.map (·.1) := by
  induction fs using reverseRecOn with
  | nil => exact absurd ho getElem?_origins_nil
  | append_singleton fs f ih =>
    rw [map_append, mem_append]
    obtain ho | ⟨j, -, rfl, -⟩ := getElem?_origins_concat_iff.mp ho
    · exact .inl (ih ho)
    · exact .inr mem_cons_self

theorem origin_offset (hdistinct : (fs.map (·.1)).Nodup) {j : Nat} {o' : Origin}
    (ho : (origins fs)[i]? = some (some o)) (ho' : (origins fs)[j]? = some (some o')) (hkey : o.key = o'.key) :
    i + o'.line = j + o.line := by
  induction fs using reverseRecOn with
  | nil => exact absurd ho getElem?_origins_nil
  | append_singleton fs f ih =>
    rw [map_append, map_singleton, nodup_append] at hdistinct
    have hnew {k : Nat} {p : Origin} (hp : (origins fs)[k]? = some (some p)) : p.key ≠ f.1 :=
      hdistinct.2.2 _ (key_of_origin hp) _ mem_cons_self
    obtain ho | ⟨a, -, rfl, rfl⟩ := getElem?_origins_concat_iff.mp ho <;>
      obtain ho' | ⟨b, -, rfl, rfl⟩ := getElem?_origins_concat_iff.mp ho'
    · exact ih hdistinct.1 ho ho'
    · exact absurd hkey (hnew ho)
    · exact absurd hkey.symm (hnew ho')
    · simp only
      omega

/-- Above a line of a function stands the first one. -/
theorem exists_first (ho : (origins fs)[i]? = some (some o)) :
    ∃ first below, (origins fs)[first]? = some (some ⟨o.key, 1⟩) ∧ i = first + below ∧ o.line = below + 1 := by
  induction fs using reverseRecOn with
  | nil => exact absurd ho getElem?_origins_nil
  | append_singleton fs f ih =>
    obtain ho | ⟨j, hj, rfl, rfl⟩ := getElem?_origins_concat_iff.mp ho
    · obtain ⟨first, below, hfirst, hline⟩ := ih ho
      exact ⟨first, below, getElem?_origins_concat_iff.mpr (.inl hfirst), hline⟩
    · refine ⟨(origins fs).length + headerSize f.1, j, getElem?_origins_concat_iff.mpr (.inr ?_), rfl, rfl⟩
      exact ⟨0, Nat.lt_of_le_of_lt (Nat.zero_le j) hj, rfl, rfl⟩

/-- The best so far, or a line of the rest that comes after it. -/
theorem foldl_last (owners : Owners) (b : Int × Text) :
    ∃ r, owners.foldl (fun best o => match best with
        | none => some o
        | some b => if b.1 < o.1 then some o else some b) (some b) = some r ∧
      (r = b ∨ r ∈ owners) ∧ b.1 ≤ r.1 ∧ ∀ o ∈ owners, o.1 ≤ r.1 := by
  induction owners generalizing b with
  | nil => exact ⟨b, rfl, .inl rfl, Int.le_refl _, fun o ho => (by cases ho)⟩
  | cons o owners ih =>
    rw [foldl_cons]
    by_cases hlt : b.1 < o.1
    · obtain ⟨r, hr, hmem, hle, hall⟩ := ih o
      simp only [if_pos hlt]
      refine ⟨r, hr, .inr ?_, by omega, ?_⟩
      · exact mem_cons.mpr hmem
      · exact forall_mem_cons.mpr ⟨hle, hall⟩
    · obtain ⟨r, hr, hmem, hle, hall⟩ := ih b
      simp only [if_neg hlt]
      refine ⟨r, hr, hmem.imp_right (mem_cons_of_mem o), hle, ?_⟩
      exact forall_mem_cons.mpr ⟨by omega, hall⟩

/-- A line that counts as one script's is that script's. -/
theorem Owners.ownerOf?_of_mem {owners : Owners} {n : Int} (hmem : (n, key) ∈ owners)
    (hkey : ∀ other, (n, other) ∈ owners → other = key) : owners.ownerOf? n = some key := by
  have hfilter : (n, key) ∈ owners.filter (·.1 ≤ n) := mem_filter.mpr ⟨hmem, by simp⟩
  rw [ownerOf?]
  cases hcandidates : owners.filter (·.1 ≤ n) with
  | nil => rw [hcandidates] at hfilter; cases hfilter
  | cons b rest =>
    obtain ⟨r, hr, hfrom, hle, hall⟩ := foldl_last rest b
    rw [hcandidates] at hfilter
    have hrmem : r ∈ owners.filter (·.1 ≤ n) := hcandidates ▸ mem_cons.mpr hfrom
    obtain ⟨hrowner, hrle⟩ := mem_filter.mp hrmem
    have hge : n ≤ r.1 := (mem_cons.mp hfilter).elim (fun e => by rw [← e] at hle; exact hle) (hall _)
    have hr1 : r.1 = n := Int.le_antisymm (of_decide_eq_true hrle) hge
    rw [foldl_cons]
    refine (congrArg (Option.map (·.2)) hr).trans (congrArg some (hkey r.2 ?_))
    rwa [← hr1]

theorem ownerOf?_of_origin (ho : (origins fs)[i]? = some (some o)) :
    (drafted fs).owners.ownerOf? ((i + 1 : Nat) : Int) = some o.key := by
  refine Owners.ownerOf?_of_mem (mem_owners_iff.mpr ⟨i, o.line, rfl, ho⟩) fun other hother => ?_
  obtain ⟨j, line, hj, ho'⟩ := mem_owners_iff.mp hother
  obtain rfl : i = j := by omega
  cases ho.symm.trans ho'
  rfl

theorem startOf?_of_origin (hdistinct : (fs.map (·.1)).Nodup) (ho : (origins fs)[i]? = some (some ⟨key, 1⟩)) :
    (drafted fs).owners.startOf? key = some ((i + 1 : Nat) : Int) := by
  rw [Owners.startOf?, min?_eq_some_iff]
  constructor
  · refine mem_map.mpr ⟨(_, key), mem_filter.mpr ⟨mem_owners_iff.mpr ⟨i, 1, rfl, ho⟩, ?_⟩, rfl⟩
    exact beq_self_eq_true key
  · intro n hn
    obtain ⟨⟨_, k⟩, hkept, rfl⟩ := mem_map.mp hn
    obtain ⟨howner, hk⟩ := mem_filter.mp hkept
    obtain rfl : k = key := eq_of_beq hk
    obtain ⟨j, line, rfl, ho'⟩ := mem_owners_iff.mp howner
    obtain ⟨first, below, hfirst, rfl, -⟩ := exists_first ho'
    have hoffset := origin_offset hdistinct ho hfirst rfl
    simp only at hoffset ⊢
    omega

end ScriptCheck

/-! ## The lines of a script in its function -/

namespace Script

open Text

theorem strip_of_isBlankText {line : Text} (h : isBlankText line = true) : strip line = [] := by
  have hstart : stripStart line = [] := dropWhile_eq_nil_iff.mpr (all_eq_true.mp h)
  rw [strip, hstart]
  rfl

/-- A line of a script as it stands in a body that had to be indented. -/
def indentLine (line : Text) : Text := if isBlankText line then "" else "\t" ++ line

theorem strip_indentLine (line : Text) : strip (indentLine line) = strip line := by
  rw [indentLine]
  split
  · rename_i hblank
    rw [strip_of_isBlankText hblank]
    rfl
  · rfl

theorem newline_not_mem_indentLine {text line : Text} (h : line ∈ rows text) : .char '\n' ∉ indentLine line := by
  have hline : .char '\n' ∉ line := not_mem_of_mem_splitOn h
  rw [indentLine]
  split
  · exact not_mem_nil
  · rw [mem_append, not_or]
    exact ⟨by decide, hline⟩

/-- A body has the lines of its script, with other blanks around them. -/
theorem map_strip_rows_body (text : Text) : (rows (body text)).map strip = (rows text).map strip := by
  change (rows (if isIndented (rows text) then text else join "\n" ((rows text).map indentLine))).map strip = _
  split
  · rfl
  · have hne : (rows text).map indentLine ≠ [] := map_eq_nil_iff.not.mpr (splitOn_ne_nil _ text)
    have hrows : rows (join "\n" ((rows text).map indentLine)) = (rows text).map indentLine := by
      refine splitOn_join_of_not_mem hne fun row hrow => ?_
      obtain ⟨line, hline, rfl⟩ := mem_map.mp hrow
      exact newline_not_mem_indentLine hline
    rw [hrows, map_map]
    exact map_congr_left fun line _ => strip_indentLine line

theorem rows_formattedText {role : ScriptRole} (hheader : .char '\n' ∉ role.header) (text : Text) :
    rows (formattedText role text) = role.header :: rows (body (fillBlank text)) := by
  rw [formattedText, rows_append, rows_of_not_mem hheader]
  rfl

theorem strip_row_formattedText {role : ScriptRole} (hheader : .char '\n' ∉ role.header) {text : Text}
    (htext : isBlankText text = false) (n : Nat) :
    (row? (formattedText role text) (n + 2)).map strip = (row? text (n + 1)).map strip := by
  have hfill : fillBlank text = text := if_neg (by simp [htext])
  rw [row?, row?, rows_formattedText hheader, getElem?_cons_succ, ← getElem?_map, map_strip_rows_body,
    getElem?_map, hfill]

end Script

end ViewLint
