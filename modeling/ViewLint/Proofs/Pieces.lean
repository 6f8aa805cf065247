import ViewLint.Proofs.Relative
import ViewLint.Proofs.Replace

/-!
# Pieces of a text

A text is cut at every occurrence of a single code point, and put together again with that code point
between the pieces.

* **`Text.splitOn_join`**: pieces that are joined come apart again.
-/

namespace ViewLint.Text

variable {pieces : List Text} (stop : CodePoint)

theorem splitOn_singleton (s : Text) : splitOn [stop] s = splitWhere (· == stop) s := by
  induction s with
  | nil => rfl
  | cons c r ih =>
    by_cases h : c = stop
    · subst h
      rw [splitOn_of_start (by simp) (by simp), splitWhere, if_pos (beq_self_eq_true c), ← ih]
      rfl
    · rw [splitOn_cons (by simpa using Ne.symm h), splitWhere, if_neg (by simpa using h), ih]

theorem splitOn_append_stop (a r : Text) :
    splitOn [stop] (a ++ stop :: r) = splitOn [stop] a ++ splitOn [stop] r := by
  simp only [splitOn_singleton]
  exact splitWhere_append_stop a r (beq_self_eq_true stop)

variable {stop}

theorem splitOn_of_not_mem {s : Text} (h : stop ∉ s) : splitOn [stop] s = [s] := by
  rw [splitOn_singleton]
  exact splitWhere_of_forall fun x hx => beq_eq_false_iff_ne.mpr fun e => h (e ▸ hx)

theorem not_mem_of_mem_splitOn {s piece : Text} (h : piece ∈ splitOn [stop] s) : stop ∉ piece := by
  rw [splitOn_singleton] at h
  intro hmem
  simpa using (mem_of_mem_splitWhere h hmem).2

theorem splitOn_join (h : pieces ≠ []) : splitOn [stop] (join [stop] pieces) = pieces.flatMap (splitOn [stop]) := by
  induction pieces with
  | nil => exact absurd rfl h
  | cons piece rest ih =>
    cases rest with
    | nil => simp [join]
    | cons next rest =>
      have hjoin : join [stop] (piece :: next :: rest) = piece ++ stop :: join [stop] (next :: rest) :=
        List.append_assoc _ _ _
      rw [hjoin, splitOn_append_stop, ih (List.cons_ne_nil _ _), ← List.flatMap_cons]

theorem splitOn_join_of_not_mem (h : pieces ≠ []) (hstop : ∀ piece ∈ pieces, stop ∉ piece) :
    splitOn [stop] (join [stop] pieces) = pieces := by
  have hpieces : pieces.flatMap (splitOn [stop]) = pieces.flatMap ([·]) :=
    List.flatMap_congr fun piece hpiece => splitOn_of_not_mem (hstop piece hpiece)
  rw [splitOn_join h, hpieces, List.flatMap_singleton']

end ViewLint.Text
