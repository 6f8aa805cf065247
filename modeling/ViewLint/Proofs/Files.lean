import ViewLint.Proofs.Parents

/-!
# The texts of files

* **`Store.content?_write`**: what a file holds after it has been written.
-/

namespace ViewLint

open List Text

namespace Text

/-- Text without carriage returns is read as it is, whatever follows. -/
theorem normalizeBreaks_append {s : Text} (h : .char '\r' ∉ s) (t : Text) :
    normalizeBreaks (s ++ t) = s ++ normalizeBreaks t := by
  induction s with
  | nil => rfl
  | cons c s ih =>
    have hc : c ≠ .char '\r' := fun hc => h (hc ▸ mem_cons_self)
    have hstep : normalizeBreaks (c :: (s ++ t)) = c :: normalizeBreaks (s ++ t) := by
      rw [normalizeBreaks]
      · exact fun r hr _ => hc hr
      · exact hc
    rw [cons_append, hstep, ih fun hs => h (mem_cons_of_mem _ hs), cons_append]

theorem normalizeBreaks_of_not_mem {s : Text} (h : .char '\r' ∉ s) : normalizeBreaks s = s := by
  have happend := normalizeBreaks_append h []
  rwa [append_nil, normalizeBreaks, append_nil] at happend

theorem isEncodable_of_halves? {s : Text} (h : halves? s = none) : isEncodable s = true := by
  rw [isEncodable, all_eq_true]
  intro c hc
  simpa only [Bool.not_eq_false'] using halfRun?_eq_none_iff.mp h c hc

end Text

namespace Store

variable {s : Store} {cwd : Place} {name text : Text}

def content? (s : Store) (cwd : Place) (name : Text) : Option Text :=
  match checkName name, s.find? cwd name with
  | .ok (), some (.file text _) => some text
  | _, _ => none

theorem content?_eq_some_iff :
    s.content? cwd name = some text ↔
      checkName name = .ok () ∧ ∃ p age, s.locate cwd true name = .ok (p, some (.file text age)) := by
  rw [content?, find?]
  cases checkName name with
  | error f => simp
  | ok u =>
    rcases s.locate cwd true name with t | ⟨p, _ | (⟨text', age⟩ | ⟨age⟩ | ⟨target⟩)⟩ <;> simp

/-- What is read from a file is its text, with breaks written as line feeds. -/
theorem read_eq_ok_iff {found : Text} :
    s.read cwd name = .ok found ↔ ∃ text, s.content? cwd name = some text ∧ normalizeBreaks text = found := by
  rw [read, content?, find?]
  cases checkName name with
  | error f => simp [bind, Except.bind]
  | ok u =>
    rcases s.locate cwd true name with t | ⟨p, _ | (⟨text, age⟩ | ⟨age⟩ | ⟨target⟩)⟩ <;>
      simp [bind, Except.bind, pure, Except.pure]

theorem read_of_content? (h : s.content? cwd name = some text) :
    s.read cwd name = .ok (normalizeBreaks text) := read_eq_ok_iff.mpr ⟨text, h, rfl⟩

theorem content?_write (hground : FileName.isAbsolute name = true ∨ s.IsGrounded cwd) (pieces : List Text) :
    (s.write cwd name pieces).1.content? cwd name = some (pieces.takeWhile isEncodable).flatten ∨
      (s.write cwd name pieces).1 = s ∧ s.content? cwd name = none ∧ (s.write cwd name pieces).2 ≠ .ok () := by
  rw [write]
  cases hname : checkName name with
  | error f => exact .inr ⟨rfl, by rw [content?, hname], fun h => by cases h⟩
  | ok u =>
    cases hlocate : s.locate cwd true name with
    | error t => exact .inr ⟨rfl, by rw [content?, find?, hlocate]; simp, fun h => by cases h⟩
    | ok r =>
      obtain ⟨p, e⟩ := r
      by_cases hdir : ∃ age, e = some (.directory age)
      · obtain ⟨age, rfl⟩ := hdir
        exact .inr ⟨rfl, by rw [content?, find?, hlocate]; simp, fun h => by cases h⟩
      · refine .inl (content?_eq_some_iff.mpr ⟨hname, p, freshAge, ?_⟩)
        have hput := locate_put hlocate (fun age he => hdir ⟨age, he⟩) hground
          (pieces.takeWhile isEncodable).flatten freshAge
        rcases e with _ | (⟨text', age⟩ | ⟨age⟩ | ⟨target⟩)
        · exact hput
        · exact hput
        · exact absurd ⟨age, rfl⟩ hdir
        · exact hput

theorem content?_of_write_ok (hground : FileName.isAbsolute name = true ∨ s.IsGrounded cwd) {pieces : List Text}
    (h : (s.write cwd name pieces).2 = .ok ()) :
    (s.write cwd name pieces).1.content? cwd name = some pieces.flatten := by
  have hhalves : pieces.findSome? halves? = none := by
    rw [write] at h
    split at h
    · cases h
    · split at h
      · cases h
      · dsimp only at h
        split at h
        · cases h
        · assumption
      · cases h
  have hall : pieces.takeWhile isEncodable = pieces :=
    takeWhile_eq_self_iff.mpr fun text htext =>
      isEncodable_of_halves? (findSome?_eq_none_iff.mp hhalves text htext)
  obtain hopened | ⟨-, -, herror⟩ := content?_write hground pieces
  · rw [hopened, hall]
  · exact absurd h herror

end Store

end ViewLint
