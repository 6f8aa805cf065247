import ViewLint.Proofs.Pieces
import ViewLint.Proofs.Walking

/-!
# Steps of names

A name is put together from a root and steps, and a walk takes these steps again. What is written under a name is
found there.

* **`Store.locate_put`**: a file that has been written is found under its name.
-/

namespace ViewLint

open List Text FileName

namespace Text

theorem encodedSize_append (s t : Text) : encodedSize (s ++ t) = encodedSize s + encodedSize t := by
  have hfold (f : CodePoint → Nat) (t : Text) (n : Nat) :
      t.foldl (fun n c => n + f c) n = n + t.foldl (fun n c => n + f c) 0 := by
    induction t generalizing n with
    | nil => rfl
    | cons c r ih => rw [foldl_cons, foldl_cons, ih, ih (0 + f c)]; omega
  exact foldl_append.trans (hfold _ t _)

theorem join_cons_of_ne_nil (sep piece : Text) {rest : List Text} (h : rest ≠ []) :
    join sep (piece :: rest) = piece ++ sep ++ join sep rest := by
  match rest, h with
  | _ :: _, _ => rfl

theorem join_splitOn (stop : CodePoint) (s : Text) : join [stop] (splitOn [stop] s) = s := by
  induction s with
  | nil => rfl
  | cons c r ih =>
    by_cases h : c = stop
    · subst h
      rw [splitOn_of_start (by simp) (by simp)]
      exact (join_nil_cons _ (splitOn_ne_nil _ _)).trans (congrArg _ ih)
    · rw [splitOn_cons (by simpa using Ne.symm h), join_consHead _ _ (splitOn_ne_nil _ _), ih]

/-- Fewer pieces take less room. -/
theorem encodedSize_join_le (sep : Text) {xs ys : List Text} (h : xs.Sublist ys) :
    encodedSize (join sep xs) ≤ encodedSize (join sep ys) := by
  induction h with
  | slnil => exact Nat.le_refl _
  | @cons xs ys y h ih =>
    by_cases hys : ys = []
    · subst hys
      rw [eq_nil_of_sublist_nil h]
      exact Nat.zero_le _
    · rw [join_cons_of_ne_nil sep y hys, encodedSize_append]
      omega
  | @cons_cons xs ys x h ih =>
    by_cases hys : ys = []
    · subst hys
      rw [eq_nil_of_sublist_nil h]
    · rw [join_cons_of_ne_nil sep x hys, encodedSize_append, encodedSize_append]
      by_cases hxs : xs = []
      · rw [hxs, join]
        omega
      · rw [join_cons_of_ne_nil sep x hxs, encodedSize_append, encodedSize_append]
        omega

theorem mem_join {sep : Text} {pieces : List Text} {c : CodePoint} (h : c ∈ join sep pieces) :
    c ∈ sep ∨ ∃ piece ∈ pieces, c ∈ piece := by
  induction pieces with
  | nil => cases h
  | cons piece rest ih =>
    by_cases hrest : rest = []
    · subst hrest
      exact .inr ⟨piece, mem_singleton.mpr rfl, h⟩
    · rw [join_cons_of_ne_nil sep piece hrest, mem_append, mem_append] at h
      obtain (h | h) | h := h
      · exact .inr ⟨piece, mem_cons_self, h⟩
      · exact .inl h
      · exact (ih h).imp_right fun ⟨p, hp, hc⟩ => ⟨p, mem_cons_of_mem _ hp, hc⟩

theorem halfRun?_eq_none_iff {bad : CodePoint → Bool} {s : Text} :
    halfRun? bad s = none ↔ ∀ c ∈ s, bad c = false := by
  rw [halfRun?]
  split
  · rename_i hdrop
    refine ⟨fun _ c hc => ?_, fun _ => rfl⟩
    simpa only [Bool.not_eq_true'] using dropWhile_eq_nil_iff.mp hdrop c hc
  · rename_i hdrop
    refine ⟨nofun, fun h => ?_⟩
    rw [dropWhile_eq_nil_iff.mpr fun c hc => by rw [h c hc]; rfl] at hdrop
    cases hdrop

end Text

/-! ## Steps of names -/

namespace Store

/-- The steps of a walk, without those that stay in place. -/
theorem filter_walkSteps (name : Text) : (walkSteps name).filter (· != ofString ".") = steps name := by
  have hfilter (pieces : List Text) : (pieces.filter (!·.isEmpty)).filter (· != ofString ".") =
      pieces.filter fun s => s != ofString "" && s != ofString "." := by
    rw [filter_filter]
    refine filter_congr fun s _ => ?_
    cases s <;> simp [ofString]
  rw [walkSteps, steps]
  split
  · rw [concat_eq_append, filter_append, hfilter]
    exact append_nil _
  · exact hfilter _

theorem checkName_eq_ok_iff {s : Text} :
    checkName s = .ok () ↔ (∀ c ∈ s, (!c.isChar && !c.isByte) = false) ∧ .char '\x00' ∉ s := by
  have hhalves : nameHalves? s = none ↔ ∀ c ∈ s, (!c.isChar && !c.isByte) = false := halfRun?_eq_none_iff
  rw [← hhalves, checkName]
  split
  · rename_i run hrun
    simp [hrun]
  · rename_i hnone
    simp [hnone]

end Store

namespace FileName

variable {name start : Text}

theorem of_mem_steps {step : Text} (h : step ∈ steps name) :
    .char '/' ∉ step ∧ step ≠ [] ∧ step ∈ splitOn "/" name := by
  obtain ⟨hmem, hne⟩ := mem_filter.mp h
  refine ⟨not_mem_of_mem_splitOn hmem, ?_, hmem⟩
  rintro rfl
  exact absurd hne (by decide)

/-- What an absolute name starts with. -/
def IsRoot (start : Text) : Prop := start = "/" ∨ start = "//"

theorem IsRoot.ne_nil (h : IsRoot start) : start ≠ [] := by
  rcases h with rfl | rfl <;> decide

theorem IsRoot.splitOn (h : IsRoot start) (rest : Text) : ∃ front : List Text, (∀ piece ∈ front, piece = []) ∧
      splitOn "/" (start ++ rest) = front ++ splitOn "/" rest := by
  have hslash (t : Text) : Text.splitOn "/" (.char '/' :: t) = [[]] ++ Text.splitOn "/" t :=
    splitOn_append_stop (.char '/') [] t
  rcases h with rfl | rfl
  · exact ⟨[[]], by simp, hslash rest⟩
  · exact ⟨[[], []], by simp, (hslash _).trans (congrArg _ (hslash rest))⟩

theorem root_of_isAbsolute (h : isAbsolute name = true) : IsRoot (root name) ∧ root name <+: name := by
  have hslash : startsWith name "/" = true := h
  rw [root, hslash]
  split
  · exact ⟨.inl rfl, isPrefixOf_iff_prefix.mp h⟩
  · split
    · rename_i hstart
      exact ⟨.inr rfl, isPrefixOf_iff_prefix.mp hstart⟩
    · exact ⟨.inl rfl, isPrefixOf_iff_prefix.mp h⟩

theorem IsRoot.steps (h : IsRoot start) (rest : Text) : steps (start ++ rest) = steps rest := by
  obtain ⟨front, hfront, hsplit⟩ := h.splitOn rest
  rw [FileName.steps, hsplit, filter_append, filter_eq_nil_iff.mpr fun piece hpiece => by
    rw [hfront piece hpiece]; decide]
  rfl

theorem IsRoot.ofSteps (h : IsRoot start) (xs : List Text) : ofSteps start xs = start ++ Text.join "/" xs := by
  rw [FileName.ofSteps, if_neg]
  simp [h.ne_nil]

theorem walkSteps_ofSteps (hstart : IsRoot start) {xs : List Text} (hxs : ∀ step ∈ xs, .char '/' ∉ step ∧ step ≠ []) :
    Store.walkSteps (ofSteps start xs) = if xs = [] then [ofString "."] else xs := by
  rw [hstart.ofSteps]
  by_cases hnil : xs = []
  · subst hnil
    rcases hstart with rfl | rfl <;> decide
  · obtain ⟨front, hfront, hsplit⟩ := hstart.splitOn (Text.join "/" xs)
    have hjoin : Text.splitOn "/" (Text.join "/" xs) = xs :=
      splitOn_join_of_not_mem hnil fun step hstep => (hxs step hstep).1
    have hend : ¬ Text.endsWith (start ++ Text.join "/" xs) "/" = true := by
      intro hend
      obtain ⟨u, hu⟩ := isSuffixOf_iff_suffix.mp hend
      have hpieces : front ++ xs = splitOn "/" u ++ [[]] := by
        rw [← hjoin, ← hsplit, ← hu]
        exact splitOn_append_stop (.char '/') u []
      have hlast : xs.getLast? = some [] := by
        rw [← getLast?_append_of_ne_nil front hnil, hpieces, getLast?_concat]
      exact (hxs [] (mem_of_getLast? hlast)).2 rfl
    rw [Store.walkSteps, if_neg hend, if_neg hnil, hsplit, hjoin, filter_append]
    rw [filter_eq_nil_iff.mpr fun piece hpiece => by rw [hfront piece hpiece]; decide]
    exact filter_eq_self.mpr fun step hstep => by simpa using (hxs step hstep).2

end FileName

/-! ## Files that exist -/

namespace Store

variable {s : Store} {cwd : Place} {name : Text}

theorem of_locate_eq_ok {follow : Bool} {r : Place × Option Entry} (h : s.locate cwd follow name = .ok r) :
    name ≠ [] ∧ encodedSize name ≤ nameLimit ∧
      Walks s follow linkLimit (if isAbsolute name then [] else cwd) (walkSteps name) r.1 ∧
      r.2 = s.entry? r.1 := by
  rw [locate] at h
  split at h
  · cases h
  · split at h
    · cases h
    · rename_i hne hsize
      exact ⟨by simpa using hne, Nat.le_of_not_lt hsize, walks_of_walk h⟩

theorem makeDirectories_of_isDirectory (hname : checkName name = .ok ()) (h : s.isDirectory cwd name = true) :
    s.makeDirectories cwd name = .ok s := by
  have hlocated : ∃ q age, s.locate cwd true name = .ok (q, some (.directory age)) := by
    rw [isDirectory, find?] at h
    rcases hlocate : s.locate cwd true name with t | ⟨q, _ | (⟨text, age⟩ | ⟨age⟩ | ⟨target⟩)⟩ <;> rw [hlocate] at h
    · cases h
    · cases h
    · cases h
    · exact ⟨q, age, rfl⟩
    · cases h
  obtain ⟨q, age, hlocated⟩ := hlocated
  obtain ⟨hne, hsize, hwalks, hentry⟩ := of_locate_eq_ok hlocated
  obtain ⟨r, hr, hfound⟩ := hwalks.unfollowed (by rw [← hentry]; exact Option.some_ne_none _)
  have hmade : s.makeDirectory cwd name = .error (.exists name) := by
    obtain ⟨e, he⟩ := Option.ne_none_iff_exists'.mp hfound
    rw [makeDirectory, locate, if_neg (by simpa using hne), if_neg (by omega), hr.walk, he]
  have hkept (depth : Nat) : makeAbove cwd depth s name = .ok s := by
    cases depth with
    | zero => simp only [makeAbove, ensureDirectory, hmade, h, if_true]
    | succ depth => simp only [makeAbove, hmade, h, if_true]
  rw [makeDirectories, hname]
  simp only [bind, Except.bind, hkept]
  rfl

/-! ## Files that have been written -/

theorem locate_put {p : Place} {e : Option Entry} (h : s.locate cwd true name = .ok (p, e))
    (hdir : ∀ age, e ≠ some (.directory age)) (hground : isAbsolute name = true ∨ s.IsGrounded cwd)
    (text : Text) (age : Binary64) :
    (s.put p (.file text age)).locate cwd true name = .ok (p, some (.file text age)) := by
  obtain ⟨hne, hsize, hwalks, he⟩ := of_locate_eq_ok h
  have hstart : s.IsGrounded (if isAbsolute name then [] else cwd) := by
    split
    · exact isGrounded_root
    · rename_i habs
      exact hground.resolve_left habs
  have hnot : ¬ s.IsDirectoryAt p := fun ⟨age, hage⟩ => hdir age (he.trans hage)
  have hp : p ≠ [] := fun hp => hnot (hp ▸ isDirectoryAt_root)
  have hput := hwalks.put hnot (hwalks.isGrounded hstart).no_link (e := .file text age) nofun
  rw [locate, if_neg (by simpa using hne), if_neg (by omega), hput.walk, entry?_put s hp, if_pos rfl]

end Store

end ViewLint
