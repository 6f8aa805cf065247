import ViewLint.Proofs.Sessions

/-!
# Actions side by side

Two actions go in lockstep if, started in the same workspace, they stop for the same reason or give related
results, and leave the same workspace.

* **`Lockstep.map_eq`**: actions in lockstep are the same action, seen through their results.
-/

namespace ViewLint.Session

variable {α β γ δ : Type}

/-- Two ends of actions in the same workspace, with related results or for the same reason. -/
inductive EndsAlike (R : α → β → Prop) : Except Stop α × Workspace → Except Stop β × Workspace → Prop
  | ok {a : α} {b : β} (w : Workspace) (h : R a b) : EndsAlike R (.ok a, w) (.ok b, w)
  | stop (e : Stop) (w : Workspace) : EndsAlike R (.error e, w) (.error e, w)

theorem EndsAlike.mono {R R' : α → β → Prop} {p : Except Stop α × Workspace} {q : Except Stop β × Workspace}
    (h : EndsAlike R p q) (hR : ∀ a b, R a b → R' a b) : EndsAlike R' p q := by
  cases h with
  | ok w hab => exact .ok w (hR _ _ hab)
  | stop e w => exact .stop e w

/-- Two results, or the same fault twice. -/
inductive OrFault (R : α → β → Prop) : Except Fault α → Except Fault β → Prop
  | ok {a : α} {b : β} (h : R a b) : OrFault R (.ok a) (.ok b)
  | fault (f : Fault) : OrFault R (.error f) (.error f)

section OrFault

variable {f : α → Except Fault γ} {R : α → β → Prop} {S : γ → δ → Prop}

theorem OrFault.bind {x : Except Fault α} {y : Except Fault β} {g : β → Except Fault δ}
    (h : OrFault R x y) (hfg : ∀ a b, R a b → OrFault S (f a) (g b)) : OrFault S (x >>= f) (y >>= g) := by
  cases h with
  | ok hab => exact hfg _ _ hab
  | fault f => exact .fault f

theorem OrFault.after (x : Except Fault α) {g : α → Except Fault δ}
    (hfg : ∀ a, OrFault S (f a) (g a)) : OrFault S (x >>= f) (x >>= g) := by
  cases x with
  | ok a => exact hfg a
  | error f => exact .fault f

theorem OrFault.mapM {f : γ → Except Fault α} {g : γ → Except Fault β} (h : ∀ x, OrFault R (f x) (g x)) (xs : List γ) :
    OrFault (List.Forall₂ R) (xs.mapM f) (xs.mapM g) := by
  induction xs with
  | nil => exact .ok .nil
  | cons x xs ih =>
    rw [List.mapM_cons, List.mapM_cons]
    exact (h x).bind fun a b hab => ih.bind fun as bs habs => .ok (.cons hab habs)

end OrFault

/-- Two actions that end alike in every workspace. -/
def Lockstep (R : α → β → Prop) (x : Session α) (y : Session β) : Prop :=
  ∀ w, EndsAlike R (runIn w x) (runIn w y)

namespace Lockstep

variable {a : α} {f : α → Session γ} {R : α → β → Prop} {S : γ → δ → Prop} {x : Session α} {y : Session β}

theorem pure {b : β} (h : R a b) : Lockstep R (pure a) (pure b) := fun w => .ok w h

theorem fail (f : Fault) : Lockstep R (fail f) (fail f) := fun w => .stop (.fault f) w

theorem lift {x : Except Fault α} {y : Except Fault β} (h : OrFault R x y) :
    Lockstep R (Session.lift x) (Session.lift y) := by
  cases h with
  | ok hab => exact pure hab
  | fault f => exact fail f

theorem ok_bind {b : β} {g : α → Session γ} {g' : β → Session δ} (h : Lockstep S (g a) (g' b)) :
    Lockstep S (Session.lift (.ok a) >>= g) (Session.lift (.ok b) >>= g') := h

theorem fail_bind (f : Fault) (g : α → Session γ) (g' : β → Session δ) :
    Lockstep S (Session.fail f >>= g) (Session.fail f >>= g') := fun w => .stop (.fault f) w

theorem refl (x : Session α) : Lockstep Eq x x := by
  intro w
  rcases runIn w x with ⟨e | a, v⟩
  · exact .stop e v
  · exact .ok v rfl

theorem mono {R' : α → β → Prop} (h : Lockstep R x y) (hR : ∀ a b, R a b → R' a b) : Lockstep R' x y :=
  fun w => (h w).mono hR

theorem bind {g : β → Session δ} (h : Lockstep R x y)
    (hfg : ∀ a b, R a b → Lockstep S (f a) (g b)) : Lockstep S (x >>= f) (y >>= g) := by
  intro w
  have hw := h w
  rw [runIn_bind, runIn_bind]
  generalize runIn w x = p at hw
  generalize runIn w y = q at hw
  cases hw with
  | ok v hab => exact hfg _ _ hab v
  | stop e v => exact .stop e v

theorem after (x : Session α) {g : α → Session δ} (hfg : ∀ a, Lockstep S (f a) (g a)) :
    Lockstep S (x >>= f) (x >>= g) :=
  (refl x).bind fun a _ hab => hab ▸ hfg a

theorem map_right {f : β → γ} {S : α → γ → Prop} (h : Lockstep R x y) (hS : ∀ a b, R a b → S a (f b)) :
    Lockstep S x (f <$> y) := by
  rw [← bind_pure x, map_eq_pure_bind]
  exact h.bind fun a b hab => pure (hS a b hab)

theorem attempt (h : Lockstep R x y) : Lockstep (OrFault R) (attempt x) (attempt y) := by
  intro w
  have hw := h w
  rw [runIn_attempt, runIn_attempt]
  generalize runIn w x = p at hw
  generalize runIn w y = q at hw
  cases hw with
  | ok v hab => exact .ok v (.ok hab)
  | stop e v =>
    cases e with
    | fault f => exact .ok v (.fault f)
    | exit code => exact .stop (.exit code) v

theorem of_ok (h : Lockstep R x y) {w w' : Workspace} (hx : runIn w x = (.ok a, w')) :
    ∃ b, runIn w y = (.ok b, w') ∧ R a b := by
  have hw := h w
  rw [hx] at hw
  generalize runIn w y = q at hw
  cases hw with
  | ok _ hab => exact ⟨_, rfl, hab⟩

theorem map_eq {f : α → γ} {g : β → γ} (h : Lockstep (fun a b => f a = g b) x y) : f <$> x = g <$> y := by
  have hmap : Lockstep Eq (f <$> x) (g <$> y) := by
    rw [map_eq_pure_bind, map_eq_pure_bind]
    exact h.bind fun a b hab => pure hab
  refine funext fun w => ?_
  have hw : EndsAlike Eq (runIn w (f <$> x)) (runIn w (g <$> y)) := hmap w
  change runIn w (f <$> x) = runIn w (g <$> y)
  generalize runIn w (f <$> x) = p at hw
  generalize runIn w (g <$> y) = q at hw
  cases hw with
  | ok v hab => rw [hab]
  | stop e v => rfl

end Lockstep

end ViewLint.Session
