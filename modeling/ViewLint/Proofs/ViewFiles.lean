import ViewLint.Proofs.ReadBack
import ViewLint.Proofs.RecordedNames
import ViewLint.Proofs.Sessions
import ViewLint.Proofs.StoredCharacters
import ViewLint.Run.File

/-!
# View files that are written

A file is emptied before anything is written to it. So a document that cannot be encoded takes the place of
what the file held, and leaves nothing there.

* **`ViewFile.saved_or_kept_iff`**: when a document is saved, or the file is as it was.
-/

namespace ViewLint

open Session FileName View

namespace ViewFile

/-- What is said about a document that has been written, or has not. -/
def answer (full : Text) : Except Fault Unit → Session Unit
  | .ok () => return ()
  | .error (.storage e) => giveUp ("Failed to write " ++ full ++ ": " ++ e.message)
  | .error f => Session.fail f

theorem runIn_answer (w : Workspace) (full : Text) (written : Except Fault Unit) :
    (runIn w (answer full written)).2.cwd = w.cwd ∧
    (runIn w (answer full written)).2.store = w.store := by
  rcases written with f | u
  · cases f <;> exact ⟨rfl, rfl⟩
  · exact ⟨rfl, rfl⟩

theorem runIn_write {w : Workspace} {path : Text} {place : Place} (hplace : w.store.resolve w.cwd path = .ok place)
    (doc : Json) :
    (runIn w (write path doc)).2.cwd = w.cwd ∧
    (runIn w (write path doc)).2.store =
      match w.store.makeDirectories w.cwd (parent place.name) with
      | .ok s => (s.write w.cwd place.name [format doc]).1
      | .error _ => w.store := by
  have hwrite : write path doc = (do
      let full := (← resolve path).name
      let written ← attempt (do
        makeDirectories (parent full)
        writeFile full (format doc))
      answer full written) := rfl
  have hresolve : runIn w (resolve path) = (.ok place, w) := by
    rw [runIn_resolve, hplace, runIn_lift_ok]
  rw [hwrite, runIn_bind_of_ok hresolve]
  simp only [runIn_bind, runIn_attempt, runIn_makeDirectories]
  cases w.store.makeDirectories w.cwd (parent place.name) with
  | error f => exact runIn_answer w _ _
  | ok s =>
    simp only [writeFile, runIn_writePieces]
    cases (s.write w.cwd place.name [format doc]).2 <;> exact runIn_answer _ _ _

/-- **A document that is written replaces the file, or nothing is there before and after.** What is left of a text
that cannot be encoded is an empty file. -/
theorem content?_write {w : Workspace} {path : Text} {place : Place} (hplace : w.store.resolve w.cwd path = .ok place)
    (doc : Json) :
    (runIn w (write path doc)).2.store.content? w.cwd place.name =
        some (if (format doc).isEncodable then format doc else []) ∨
      w.store.content? w.cwd place.name = none ∧
        (runIn w (write path doc)).2.store.content? w.cwd place.name = none := by
  have habs : isAbsolute place.name = true := List.isPrefixOf_iff_prefix.mpr (List.prefix_append _ _)
  -- Where a file is there before, so are the directories above it, and it is opened.
  have hthere {text : Text} (h : w.store.content? w.cwd place.name = some text) :
      w.store.makeDirectories w.cwd (parent place.name) = .ok w.store := Store.makeDirectories_above h
  rw [(runIn_write hplace doc).2]
  cases hmake : w.store.makeDirectories w.cwd (parent place.name) with
  | error f =>
    have hnone : w.store.content? w.cwd place.name = none := by
      rw [Option.eq_none_iff_forall_ne_some]
      intro text htext
      exact nomatch hmake.symm.trans (hthere htext)
    exact .inr ⟨hnone, hnone⟩
  | ok s =>
    obtain hopened | ⟨hsame, hnone, -⟩ := @Store.content?_write s w.cwd place.name (.inl habs) [format doc]
    · left
      rw [hopened]
      cases hencodable : (format doc).isEncodable <;> simp [hencodable]
    · right
      refine ⟨?_, (congrArg (·.content? w.cwd place.name) hsame).trans hnone⟩
      rw [Option.eq_none_iff_forall_ne_some]
      intro text htext
      cases hmake.symm.trans (hthere htext)
      exact nomatch hnone.symm.trans htext

/-- **Writing a document leaves it in its file, or leaves the file as it was, exactly if the names and texts of the
document can be encoded, if the file was empty before, or if no file is there.** A file that held something is lost
with a text that cannot be encoded. -/
theorem saved_or_kept_iff {w : Workspace} {path : Text} {place : Place} {doc : Json}
    (hplace : w.store.resolve w.cwd path = .ok place) (hdoc : ∃ source, Json.parse source = .ok doc.plain) :
    let w' := (Session.runIn w (write path doc)).2
    ((∃ text, w'.store.read w'.cwd place.name = .ok text ∧ Json.parse text = .ok doc.plain) ∨
        w'.store.content? w'.cwd place.name = w.store.content? w.cwd place.name) ↔
      doc.strings.all Text.isEncodable = true ∨ w.store.content? w.cwd place.name = some [] ∨
        w'.store.content? w'.cwd place.name = none := by
  intro w'
  obtain ⟨source, hsource⟩ := hdoc
  have hread := Json.isRead_of_parse hsource
  have hdocument : doc.isDocument = true := doc.isDocument_plain ▸ hread.isDocument
  have hformat : Json.parse (Text.normalizeBreaks (View.format doc)) = .ok doc.plain := by
    rw [View.format_eq, Text.normalizeBreaks_of_not_mem (Json.return_not_mem_stored hdocument 0)]
    exact Json.parse_of_reads (Json.reads_stored hdocument (doc.integers_plain ▸ hread.integers) 0)
  have hencodable : (View.format doc).isEncodable = doc.strings.all Text.isEncodable := by
    rw [View.format_eq, Json.isEncodable_stored hdocument]
  have hcwd : w'.cwd = w.cwd := (runIn_write hplace doc).1
  have hout :
      w'.store.content? w.cwd place.name = some (if doc.strings.all Text.isEncodable then View.format doc else []) ∨
      w.store.content? w.cwd place.name = none ∧ w'.store.content? w.cwd place.name = none :=
    hencodable ▸ content?_write hplace doc
  rw [hcwd]
  cases hall : doc.strings.all Text.isEncodable with
  | true =>
    refine iff_of_true ?_ (.inl rfl)
    obtain hafter | ⟨hbefore, hafter⟩ := hout
    · rw [hall, if_pos rfl] at hafter
      exact .inl ⟨_, Store.read_of_content? hafter, hformat⟩
    · exact .inr (hafter.trans hbefore.symm)
  | false =>
    rw [hall, if_neg (by decide)] at hout
    obtain hafter | ⟨hbefore, hafter⟩ := hout
    · -- The file is there and empty, so nothing can be read from it.
      have hlost : ¬ ∃ text, w'.store.read w.cwd place.name = .ok text ∧ Json.parse text = .ok doc.plain := by
        rintro ⟨text, htext, hparse⟩
        cases htext.symm.trans (Store.read_of_content? hafter)
        cases hparse
      rw [or_iff_right hlost, hafter]
      constructor
      · intro hkept
        exact .inr (.inl hkept.symm)
      · rintro (hfalse | hempty | hnone)
        · cases hfalse
        · exact hempty.symm
        · cases hnone
    · exact iff_of_true (.inr (hafter.trans hbefore.symm)) (.inr (.inr hafter))

/-- A document with half of a surrogate pair in it. -/
def halved : Json := .object [("a", .str [.half ⟨0, by decide⟩])]

def viewText : Text := "\x7b\"a\": 1\x7d"

def oneView : Workspace := { store := ⟨[([Text.ofString "view.json"], .file viewText (.ofInt 60))]⟩, cwd := [] }

theorem resolve_oneView : oneView.store.resolve oneView.cwd "view.json" = .ok [Text.ofString "view.json"] := by
  have hplace : (oneView.store.resolve oneView.cwd "view.json").toOption = some [Text.ofString "view.json"] := by
    decide +kernel
  cases hresolve : oneView.store.resolve oneView.cwd "view.json" with
  | error f => rw [hresolve] at hplace; cases hplace
  | ok place => rw [hresolve] at hplace; cases hplace; rfl

theorem content?_oneView : oneView.store.content? oneView.cwd "/view.json" = some viewText := by
  decide +kernel

theorem name_view : Place.name [Text.ofString "view.json"] = "/view.json" := by decide

theorem content?_write_halved :
    (runIn oneView (write "view.json" halved)).2.store.content? oneView.cwd "/view.json" = some [] := by
  have hhalf : (format halved).isEncodable = false := by
    rw [format_eq, Json.isEncodable_stored (by decide)]
    decide
  have hout := content?_write resolve_oneView halved
  rw [name_view, hhalf, content?_oneView] at hout
  obtain hafter | ⟨hbefore, -⟩ := hout
  · exact hafter
  · cases hbefore

theorem saved_or_kept_iff_halved :
    let w' := (Session.runIn oneView (write "view.json" halved)).2
    oneView.store.resolve oneView.cwd "view.json" = .ok [Text.ofString "view.json"] ∧
    (∃ source, Json.parse source = .ok halved.plain) ∧
    ¬ ((∃ text, w'.store.read w'.cwd "/view.json" = .ok text ∧ Json.parse text = .ok halved.plain) ∨
      w'.store.content? w'.cwd "/view.json" = oneView.store.content? oneView.cwd "/view.json") := by
  have hsource : ∃ source, Json.parse source = .ok halved.plain :=
    ⟨halved.stored 0, Json.parse_of_reads (Json.reads_stored (by decide) (by decide) 0)⟩
  have hcwd : (Session.runIn oneView (write "view.json" halved)).2.cwd = oneView.cwd :=
    (runIn_write resolve_oneView halved).1
  have hiff := saved_or_kept_iff resolve_oneView hsource
  refine ⟨resolve_oneView, hsource, fun h => ?_⟩
  rw [name_view] at hiff
  obtain hencodable | hempty | hnone := hiff.mp h
  · exact absurd hencodable (by decide)
  · rw [content?_oneView] at hempty
    cases hempty
  · rw [hcwd, content?_write_halved] at hnone
    cases hnone

/-- A view is lost with a document that cannot be encoded. -/
theorem write_empties_view : oneView.store.content? oneView.cwd "/view.json" = some viewText ∧
    (Session.runIn oneView (write "view.json" halved)).2.store.content? oneView.cwd "/view.json" = some [] :=
  ⟨content?_oneView, content?_write_halved⟩

end ViewFile

end ViewLint
