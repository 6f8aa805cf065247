import ViewLint.Proofs.Fields
import ViewLint.Model.Build

/-!
# Custom methods as they are found

The parts of custom methods are found one by one, each at a path of its own.

* **`Flat.forall_methodParts`**: what new parts have and learning keeps, all parts have.
-/

namespace ViewLint

open Text Fields

def Json.isText : Json → Bool
  | .str _ => true
  | _ => false

variable {e : Text × Json} {m : MethodParts} {v : Json} {path digits : Text}

namespace Flat

/-! ## What an entry adds -/

/-- The methods found so far, with what an entry adds. -/
def addMethod (seen : List (Text × MethodParts)) (e : Text × Json) : Except Fault (List (Text × MethodParts)) :=
  match Text.indexAfter? ".scripts.customMethods" e.1 with
  | none => .ok seen
  | some digits => do
    let owner := Text.before ".scripts.customMethods" e.1
    let index := natText (← readIndex digits)
    let key := owner ++ ".customMethod_" ++ index
    let known := (Fields.get? seen key).getD { path := owner ++ ".scripts.customMethods[" ++ index ++ "]" }
    return Fields.insert seen key (← known.learn e.1 e.2)

theorem methodParts_eq (flat : Flat) : flat.methodParts = flat.foldlM addMethod [] := rfl

/-- What an entry adds, if the path leads to a method. -/
theorem addMethod_eq_ok_iff {seen next : List (Text × MethodParts)}
    (hdigits : indexAfter? ".scripts.customMethods" e.1 = some digits) :
    addMethod seen e = .ok next ↔ ∃ i m, readIndex digits = .ok i ∧
      MethodParts.learn ((get? seen (before ".scripts.customMethods" e.1 ++ ".customMethod_" ++ natText i)).getD
        { path := before ".scripts.customMethods" e.1 ++ ".scripts.customMethods[" ++ natText i ++ "]" })
        e.1 e.2 = .ok m ∧
      insert seen (before ".scripts.customMethods" e.1 ++ ".customMethod_" ++ natText i) m = next := by
  rw [addMethod, hdigits]
  simp only [bind_eq_ok, pure, Except.pure, Except.ok.injEq]
  exact ⟨fun ⟨i, hi, m, hm, hnext⟩ => ⟨i, m, hi, hm, hnext⟩, fun ⟨i, m, hi, hm, hnext⟩ => ⟨i, hi, m, hm, hnext⟩⟩

/-! ## All parts -/

theorem MethodParts.learn_cases {m' : MethodParts} (h : m.learn path v = .ok m') :
    m' = { m with name := v } ∨ m' = { m with text := v } ∨
      (∃ i, m' = { m with params := setPadded m.params i v }) ∨ m' = m := by
  rw [MethodParts.learn] at h
  repeat' split at h
  case h_1 =>
    obtain ⟨i, -, rfl⟩ := map_eq_ok.mp h
    exact .inr (.inr (.inl ⟨i, rfl⟩))
  all_goals cases h; simp

theorem forall_addMethod {P : MethodParts → Prop} (hnew : ∀ path, P { path })
    (hlearn : ∀ {m m'}, P m → m.learn e.1 e.2 = .ok m' → P m') {seen next : List (Text × MethodParts)}
    (h : ∀ m ∈ seen, P m.2) (hadd : addMethod seen e = .ok next) : ∀ m ∈ next, P m.2 := by
  cases hdigits : indexAfter? ".scripts.customMethods" e.1 with
  | none =>
    rw [addMethod, hdigits] at hadd
    cases hadd
    exact h
  | some digits =>
    obtain ⟨i, m, -, hm, rfl⟩ := (addMethod_eq_ok_iff hdigits).mp hadd
    have hknown (key front : Text) : P ((get? seen key).getD { path := front }) := by
      cases hget : get? seen key with
      | none => exact hnew front
      | some m => exact h (key, m) (mem_of_get?_eq_some hget)
    intro f hf
    obtain hf | rfl := mem_of_mem_insert hf
    · exact h f hf
    · exact hlearn (hknown _ _) hm

theorem forall_methodParts {P : MethodParts → Prop} {flat : Flat} (hnew : ∀ path, P { path })
    (hlearn : ∀ e ∈ flat, ∀ {m m'}, P m → m.learn e.1 e.2 = .ok m' → P m') {parts : List (Text × MethodParts)}
    (h : flat.methodParts = .ok parts) : ∀ m ∈ parts, P m.2 :=
  foldlM_induction (I := fun parts : List (Text × MethodParts) => ∀ m ∈ parts, P m.2)
    (fun _ e he _ hseen hadd => forall_addMethod hnew (hlearn e he) hseen hadd) (List.forall_mem_nil _) h

end Flat

end ViewLint
