import Mathlib.Data.List.Find
import ViewLint.Proofs.Component.Index

/-!
# The types of bindings

The model takes a path for that of a binding if a type is found below it.

* **`Flat.get?_bindingTypes`**: the type of a binding is the first that is found below its path.
-/

namespace ViewLint

open List Option Text Fields Flat

variable {here : Text} {n : Node} {flat : Flat}

namespace Flat

/-- Whether a path is taken for that of the type of a binding at another path. -/
def isTypeAt (here path : Text) : Bool :=
  Text.holds path ".binding.type" && Text.beforeLast ".binding.type" path == here

/-- The types found so far, with what an entry adds. -/
def addType (seen : List (Text × Json)) (e : Text × Json) : List (Text × Json) :=
  if Text.holds e.1 ".binding.type" then
    if Fields.has seen (Text.beforeLast ".binding.type" e.1) then seen
    else seen ++ [(Text.beforeLast ".binding.type" e.1, e.2)]
  else seen

theorem bindingTypes_eq (flat : Flat) : flat.bindingTypes = flat.foldl addType [] := rfl

theorem isTypeAt_iff {path : Text} :
    isTypeAt here path = true ↔ ∃ rest, rcut? ".binding.type" path = some (here, rest) := by
  rw [isTypeAt, Bool.and_eq_true, holds_iff_isInfix, beq_iff_eq, beforeLast]
  constructor
  · rintro ⟨⟨a, b, rfl⟩, hbefore⟩
    obtain ⟨⟨front, rest⟩, hcut⟩ := isSome_iff_exists.mp (rcut?_isSome ".binding.type" a b)
    rw [hcut] at hbefore ⊢
    exact ⟨rest, congrArg (fun t => some (t, rest)) hbefore⟩
  · rintro ⟨rest, hcut⟩
    rw [hcut]
    exact ⟨⟨here, rest, (rcut?_eq_some hcut).symm⟩, rfl⟩

/-- What stands before a path makes no difference. -/
theorem isTypeAt_append (a here path : Text) : isTypeAt (a ++ here) (a ++ path) = isTypeAt here path := by
  rw [Bool.eq_iff_iff, isTypeAt_iff, isTypeAt_iff]
  constructor
  · rintro ⟨rest, hcut⟩
    have hpath := rcut?_eq_some hcut
    rw [append_assoc, append_assoc, append_right_inj, ← append_assoc] at hpath
    have hsome := rcut?_isSome ".binding.type" here rest
    rw [← hpath] at hsome
    obtain ⟨⟨front, rest'⟩, hfront⟩ := isSome_iff_exists.mp hsome
    obtain ⟨hboth, -⟩ := Prod.mk.inj (some.inj ((rcut?_append hfront a).symm.trans hcut))
    exact ⟨rest', by rw [hfront, append_cancel_left hboth]⟩
  · rintro ⟨rest, hcut⟩
    exact ⟨rest, rcut?_append hcut a⟩

theorem get?_addType (seen : List (Text × Json)) (e : Text × Json) (here : Text) :
    get? (addType seen e) here = (get? seen here).or (if isTypeAt here e.1 then some e.2 else none) := by
  rw [addType, isTypeAt]
  cases holds e.1 ".binding.type" with
  | false => simp
  | true =>
    rw [if_pos rfl, Bool.true_and]
    cases hhas : has seen (beforeLast ".binding.type" e.1) with
    | true =>
      rw [if_pos rfl]
      by_cases hhere : beforeLast ".binding.type" e.1 = here
      · obtain ⟨v, hv⟩ := isSome_iff_exists.mp hhas
        rw [hhere] at hv
        rw [hv]
        rfl
      · simp [hhere]
    | false =>
      rw [if_neg Bool.false_ne_true, get?_append, get?_cons]
      rfl

theorem get?_bindingTypes (flat : Flat) (here : Text) :
    get? flat.bindingTypes here = (flat.find? fun e => isTypeAt here e.1).map (·.2) := by
  have hfold (seen : List (Text × Json)) : get? (flat.foldl addType seen) here =
      (get? seen here).or ((flat.find? fun e => isTypeAt here e.1).map (·.2)) := by
    induction flat generalizing seen with
    | nil => simp
    | cons e flat ih =>
      rw [List.foldl_cons, ih, get?_addType, Option.or_assoc, List.find?_cons]
      cases isTypeAt here e.1 <;> rfl
  exact (congrArg (get? · here) (bindingTypes_eq flat)).trans (hfold [])

theorem nodup_bindingTypes (flat : Flat) : (flat.bindingTypes.map (·.1)).Nodup := by
  have hstart : (([] : List (Text × Json)).map (·.1)).Nodup := nodup_nil
  rw [bindingTypes_eq]
  refine foldlRecOn flat addType (motive := fun seen : List (Text × Json) => (seen.map (·.1)).Nodup) hstart
    fun seen hseen e _ => ?_
  rw [addType]
  split
  · split
    · exact hseen
    · next hhas =>
      rw [map_append, nodup_append']
      refine ⟨hseen, nodup_singleton _, disjoint_singleton.mpr fun hmem => hhas ?_⟩
      exact (mem_keys_iff seen _).mp hmem
  · exact hseen

theorem mem_bindingTypes_iff {type : Json} :
    (here, type) ∈ flat.bindingTypes ↔ get? flat.bindingTypes here = some type :=
  ⟨get?_of_nodup (nodup_bindingTypes flat), mem_of_get?_eq_some⟩

theorem of_mem_transformsOf {type key : Text} {t : Text × Json} (h : t ∈ flat.transformsOf here type key) :
    (t.1 ++ "." ++ key, t.2) ∈ flat ∧ ∃ v r, (t.1 ++ ".type", v) ∈ flat ∧ t.1 ++ ".type" = here ++ ".transforms" ++ r := by
  obtain ⟨base, hbase, hvalue⟩ := mem_filterMap.mp h
  obtain ⟨w, hw, rfl⟩ := map_eq_some_iff.mp hvalue
  refine ⟨mem_of_get?_eq_some hw, ?_⟩
  obtain ⟨⟨path, v⟩, hmem, hpath⟩ := mem_filterMap.mp hbase
  cases v with
  | str word =>
    simp only [ite_none_right_eq_some, Bool.and_eq_true] at hpath
    obtain ⟨⟨⟨hstart, hends⟩, -⟩, hbefore⟩ := hpath
    obtain ⟨front, rfl⟩ := isSuffixOf_iff_suffix.mp hends
    rw [beforeLast_append_self, some.injEq] at hbefore
    subst hbefore
    obtain ⟨r, hr⟩ := isPrefixOf_iff_prefix.mp hstart
    exact ⟨.str word, r, hmem, hr.symm⟩
  | _ => cases hpath

end Flat

end ViewLint
