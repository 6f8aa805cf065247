import ViewLint.Fix.Basic
import ViewLint.Proofs.Graft

/-!
# A value is set and others are read

Paths of names and positions from the front diverge if they differ somewhere. What is set at the end of one of them is
not seen at the end of the other.

* `Json.Replaced`: one value is another one with something set at a path.
* **`Json.setAt_laws`**: what setting a value does, and what is left alone where it fails.
-/

namespace ViewLint

open List

variable {path p q rest : Path} {k ka kb : Key} {fields : List (Key × Json)} {v v' w x a b new : Json}

/-- Both paths go on to some position, and there their steps differ. -/
def Path.Diverges (p q : Path) : Prop := ∃ (i : Nat) (a b : Json), p[i]? = some a ∧ q[i]? = some b ∧ a ≠ b

namespace Json

/-- A name, or a position from the front, with the key that it is for an object. -/
inductive IsStep : Json → Key → Prop where
  | name (s : Text) : IsStep (.str s) (.name s)
  | position (n : Nat) : IsStep (.int n) (.int n)

/-! ## One step -/

theorem compareInt_inj {y : Binary64} {m n : Int} (hm : y.compareInt m = some .eq) (hn : y.compareInt n = some .eq) :
    m = n := by
  cases y with
  | nan => cases hm
  | infinite s => cases s <;> cases hm
  | finite s e f =>
    simp only [Binary64.compareInt, Option.some.injEq, Std.LawfulEqCmp.compare_eq_iff_eq] at hm hn
    exact Int.eq_of_mul_eq_mul_right (by decide +kernel) (hm.symm.trans hn)

namespace IsStep

theorem asKey (ha : IsStep a ka) : asKey a = .ok ka := by cases ha <;> rfl

theorem beq_self (ha : IsStep a ka) : (ka == ka) = true := by
  change Key.same ka ka = true
  cases ha <;> simp [Key.same, Key.number?, Number.compare?]

/-- A key is that of one step only. -/
theorem eq_of_beq (ha : IsStep a ka) (hb : IsStep b kb) (hka : (k == ka) = true) (hkb : (k == kb) = true) : a = b := by
  change Key.same _ _ = true at hka hkb
  cases k with
  | float y =>
    cases ha with
    | name => cases hka
    | position m =>
      cases hb with
      | name => cases hkb
      | position n => rw [compareInt_inj (beq_iff_eq.mp hka) (beq_iff_eq.mp hkb)]
  | _ => cases ha <;> cases hb <;> simp [Key.same, Key.number?, Number.compare?] at hka hkb ⊢ <;> grind

theorem eq_int (ha : IsStep a ka) {length i : Nat} (h : itemPosition length a = .ok i) : a = .int i := by
  cases ha with
  | name s => cases h
  | position n =>
    by_cases hn : n < length <;> simp [itemPosition, int?, position?, hn] at h
    rw [h]

theorem get?_insert (ha : IsStep a ka) : Fields.get? (Fields.insert fields ka x) ka = some x := by
  cases hold : Fields.get? fields ka with
  | some w => exact Fields.get?_insert_self hold x
  | none => simp [Fields.insert_of_get?_eq_none hold, Fields.get?_append, hold, Fields.get?_cons, ha.beq_self]

theorem get?_insert_of_ne (ha : IsStep a ka) (hb : IsStep b kb) (hab : a ≠ b) :
    Fields.get? (Fields.insert fields ka x) kb = Fields.get? fields kb := by
  have hne {k : Key} (hk : (k == ka) = true) : ¬ (k == kb) = true := fun hk' => hab (ha.eq_of_beq hb hk hk')
  induction fields with
  | nil => rw [Fields.insert, Fields.get?_cons, if_neg (hne ha.beq_self)]
  | cons f fields ih =>
    rw [Fields.insert]
    split
    · next hf => rw [Fields.get?_cons, Fields.get?_cons, if_neg (hne hf), if_neg (hne hf)]
    · rw [Fields.get?_cons, Fields.get?_cons, ih]

/-- A part that has been exchanged is found, -/
theorem part_putPart (ha : IsStep a ka) (h : putPart path v a x = .ok v') (full : Path) : part full v' a = .ok x := by
  cases v with
  | obj kind fields =>
    rw [putPart, ha.asKey] at h
    cases h
    simp [part, ha.asKey, ha.get?_insert, bind, Except.bind]
  | arr items =>
    obtain ⟨i, hi, h⟩ := bind_eq_ok.mp h
    cases h
    simp [part, hi, itemPosition_lt hi, bind, Except.bind]
  | _ => cases h

/-- and the others are as they were. -/
theorem part_putPart_of_ne (ha : IsStep a ka) (hb : IsStep b kb) (hab : a ≠ b) (h : putPart path v a x = .ok v')
    (full : Path) : part full v' b = part full v b := by
  cases v with
  | obj kind fields =>
    rw [putPart, ha.asKey] at h
    cases h
    simp [part, hb.asKey, ha.get?_insert_of_ne hb hab, bind, Except.bind]
  | arr items =>
    obtain ⟨i, hi, h⟩ := bind_eq_ok.mp h
    cases h
    rw [part, part, length_set]
    cases hj : itemPosition items.length b with
    | error e => rfl
    | ok j =>
      have hij : i ≠ j := fun e => hab (by rw [ha.eq_int hi, hb.eq_int hj, e])
      simp [bind, Except.bind, getElem?_set_ne hij]
  | _ => cases h

end IsStep

theorem part_of_part (h : part path v a = .ok w) (full : Path) : part full v a = .ok w := by
  cases v with
  | obj _ _ | arr _ => exact h
  | _ => cases h

theorem keys_insert : Fields.keys fields <+: Fields.keys (Fields.insert fields k x) := by
  induction fields with
  | nil => exact nil_prefix
  | cons f fields ih =>
    rw [Fields.insert]
    split
    · exact prefix_rfl
    · exact (prefix_cons_inj f.1).mpr ih

/-! ## Paths -/

def IsPlain (p : Path) : Prop := ∀ a ∈ p, ∃ key, IsStep a key

/-- One value is another one with something set at a path. The objects on the way keep their keys in order. -/
structure Replaced (v v' : Json) (p : Path) (new : Json) : Prop where
  found : Leads v' p new
  frame : ∀ full q : Path, IsPlain q → p.Diverges q → follow full v' q = follow full v q
  order : ∀ (full q : Path) (kind : ObjectKind) (fields : List (Key × Json)), q <+: p → q ≠ p →
    follow full v q = .ok (.obj kind fields) →
      ∃ fields', follow full v' q = .ok (.obj kind fields') ∧ Fields.keys fields <+: Fields.keys fields'

theorem Replaced.nil (v new : Json) : Replaced v new [] new where
  found := .nil new
  frame _ _ _ h := by obtain ⟨i, a, b, ha, -⟩ := h; simp at ha
  order _ _ _ _ hq hne := absurd (prefix_nil.mp hq) hne

theorem Replaced.cons (h : Replaced w x rest new) (ha : IsStep a ka) (hput : putPart path v a x = .ok v')
    (hpart : rest = [] ∨ part path v a = .ok w) : Replaced v v' (a :: rest) new where
  found full := by
    rw [follow, ha.part_putPart hput]
    exact h.found full
  frame full q hq := by
    rintro ⟨i, b, c, hb, hc, hne⟩
    obtain ⟨d, q, rfl⟩ := exists_cons_of_length_pos (Nat.zero_lt_of_lt (List.getElem?_eq_some_iff.mp hc).1)
    obtain ⟨⟨kd, hd⟩, hrest'⟩ := forall_mem_cons.mp hq
    rw [follow, follow]
    by_cases had : a = d
    · subst had
      cases i with
      | zero => exact absurd ((Option.some.inj hb).symm.trans (Option.some.inj hc)) hne
      | succ i =>
        have hrest : rest ≠ [] := by rintro rfl; simp at hb
        rw [ha.part_putPart hput, part_of_part (hpart.resolve_left hrest)]
        exact h.frame full q hrest' ⟨i, b, c, hb, hc, hne⟩
    · rw [ha.part_putPart_of_ne hd had hput]
  order full q kind fields hq hne hobj := by
    cases q with
    | nil =>
      cases hobj
      obtain ⟨key, -, hput⟩ := bind_eq_ok.mp hput
      cases hput
      exact ⟨_, rfl, keys_insert⟩
    | cons b q =>
      obtain ⟨rfl, hpre⟩ := cons_prefix_cons.mp hq
      have hne : q ≠ rest := fun e => hne (e ▸ rfl)
      have hrest : rest ≠ [] := by rintro rfl; exact hne (prefix_nil.mp hpre)
      rw [follow, part_of_part (hpart.resolve_left hrest)] at hobj
      rw [follow, ha.part_putPart hput]
      exact h.order full q kind fields hpre hne hobj

theorem replaced_of_put (hp : IsPlain p) (h : put path new v p = .ok v') : Replaced v v' p new := by
  induction p generalizing v v' with
  | nil => cases h
  | cons a rest ih =>
    obtain ⟨⟨ka, ha⟩, hrest⟩ := forall_mem_cons.mp hp
    cases rest with
    | nil => exact (Replaced.nil v new).cons ha h (.inl rfl)
    | cons b rest =>
      obtain ⟨w, hw, h⟩ := bind_eq_ok.mp h
      obtain ⟨x, hx, h⟩ := bind_eq_ok.mp h
      exact (ih hrest hx).cons ha h (.inr hw)

/-- **Setting a value keeps the laws of a lens.** The value is found at its path, what diverges from the path is read as
before, and objects keep the order of their keys. A change that fails leaves the document as it is, and so does an
exchange that finds nothing to do. -/
theorem setAt_laws (hp : IsPlain p) (v new : Json) :
    (∀ v', v.setAt p new = .ok v' → v'.getAt p = .ok new
      ∧ (∀ q, IsPlain q → p.Diverges q → v'.getAt q = v.getAt q)
      ∧ ∀ q kind fields, q <+: p → q ≠ p → v.getAt q = .ok (.obj kind fields) →
          ∃ fields', v'.getAt q = .ok (.obj kind fields') ∧ Fields.keys fields <+: Fields.keys fields')
    ∧ (∀ op v' f, op.path = p → Fix.applyOperations v [op] = (v', some f) → v' = v)
    ∧ ∀ op old other, op.path = p → op.change = .replace old other → v.replaceAt? p old other = .ok none →
        Fix.applyOperations v [op] = (v, none) := by
  refine ⟨fun v' h => ?_, fun op v' f _ h => ?_, fun op old other hpath hchange h => ?_⟩
  · have hreplaced := replaced_of_put hp h
    exact ⟨hreplaced.found.getAt, fun q => hreplaced.frame q q, fun q => hreplaced.order q q⟩
  · rw [Fix.applyOperations] at h
    split at h
    · cases h
    · cases h
      rfl
  · simp only [Fix.applyOperations, Fix.applyOperation, hchange, hpath, h]
    rfl

/-- A key is added to an object in an array. -/
theorem setAt_laws_added : ∃ v', setAt (.object [("a", .arr [.object [("b", .int 1)], .int 2])])
      [.str "a", .int 0, .str "c"] (.int 5) = .ok v'
    ∧ v'.getAt [.str "a", .int 0, .str "c"] = .ok (.int 5) ∧ v'.getAt [.str "a", .int 1] = .ok (.int 2) := by
  have hp : IsPlain [.str "a", .int 0, .str "c"] := by
    simpa [IsPlain] using ⟨⟨_, .name "a"⟩, ⟨_, .position 0⟩, ⟨_, .name "c"⟩⟩
  have hq : IsPlain [.str "a", .int 1] := by simpa [IsPlain] using ⟨⟨_, .name "a"⟩, ⟨_, .position 1⟩⟩
  refine ⟨.object [("a", .arr [.object [("b", .int 1), ("c", .int 5)], .int 2])], rfl, ?_⟩
  obtain ⟨hfound, hframe, -⟩ := (setAt_laws hp (.object [("a", .arr [.object [("b", .int 1)], .int 2])]) (.int 5)).1 _ rfl
  exact ⟨hfound, hframe _ hq ⟨1, _, _, rfl, rfl, by simp⟩⟩

end Json

end ViewLint
