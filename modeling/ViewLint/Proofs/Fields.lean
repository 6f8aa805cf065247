import Mathlib.Data.List.Forall2
import Mathlib.Tactic.Common
import ViewLint.Json.Basic

/-!
# Fields as maps

Fields are looked up by the first entry with a key, and set in place. Over keys whose equality is
decided by `==` they form a map in order of first insertion.

* **`Fields.get?_ofPairs`**: of several pairs with one key the last one counts.
-/

namespace ViewLint

open List Option

variable {α β ε : Type} {ys : List β} {R : α → β → Prop} {x : Except ε α} {P : α → Prop}

/-- A chain of fallible steps succeeds exactly if each of them does. -/
theorem bind_eq_ok {f : α → Except ε β} {b : β} : (x >>= f) = .ok b ↔ ∃ a, x = .ok a ∧ f a = .ok b := by
  cases x <;> simp [bind, Except.bind]

theorem bind_append_eq_ok {x y : Except ε (List α)} {zs : List α} :
    (x >>= fun a => y >>= fun b => .ok (a ++ b)) = .ok zs ↔ ∃ a b, x = .ok a ∧ y = .ok b ∧ zs = a ++ b := by
  cases x with
  | error e => simp [bind, Except.bind]
  | ok a =>
    cases y with
    | error e => simp [bind, Except.bind]
    | ok b => simpa [bind, Except.bind] using eq_comm

theorem map_eq_ok {f : α → β} {b : β} : x.map f = .ok b ↔ ∃ a, x = .ok a ∧ f a = b := by
  cases x <;> simp [Except.map]

def passes {ε α : Type} (test : α → Bool) : Except ε α → Bool
  | .ok a => test a
  | .error _ => false

/-! ## Results that are decided by evaluation -/

instance decidableEqOk {x : Except ε α} {a : α} [DecidableEq α] : Decidable (x = .ok a) :=
  match x with
  | .ok b => decidable_of_iff (b = a) (by simp)
  | .error _ => isFalse (by simp)

instance decidableExistsOk {x : Except ε α} {P : α → Prop} [∀ a, Decidable (P a)] : Decidable (∃ a, x = .ok a ∧ P a) :=
  match x with
  | .ok a => decidable_of_iff (P a) (by simp)
  | .error _ => isFalse (by simp)

/-! ## Steps one after another -/

/-- Steps succeed one after another exactly if each of them does. -/
theorem mapM_eq_ok_iff {f : α → Except ε β} {xs : List α} :
    xs.mapM f = .ok ys ↔ Forall₂ (fun x y => f x = .ok y) xs ys := by
  induction xs generalizing ys with
  | nil => simp [pure, Except.pure, eq_comm]
  | cons x xs ih =>
    simp only [mapM_cons, bind_eq_ok, ih, forall₂_cons_left_iff, pure, Except.pure, Except.ok.injEq, @eq_comm _ _ ys]
    simp only [exists_and_left]

theorem exists_of_forall₂ {xs : List α} (h : Forall₂ R xs ys) {x : α} (hx : x ∈ xs) : ∃ y ∈ ys, R x y := by
  induction h with
  | nil => cases hx
  | cons hxy _ ih =>
    obtain rfl | hx := mem_cons.mp hx
    · exact ⟨_, mem_cons_self, hxy⟩
    · obtain ⟨y, hy, hR⟩ := ih hx
      exact ⟨y, mem_cons_of_mem _ hy, hR⟩

theorem mem_of_mapM_ok {f : α → Except ε β} {xs : List α}
    (h : xs.mapM f = .ok ys) {y : β} (hy : y ∈ ys) : ∃ x ∈ xs, f x = .ok y :=
  exists_of_forall₂ (mapM_eq_ok_iff.mp h).flip hy

theorem exists_of_mapM_ok {f : α → Except ε β} {xs : List α} (h : xs.mapM f = .ok ys)
    {x : α} (hx : x ∈ xs) : ∃ y ∈ ys, f x = .ok y :=
  exists_of_forall₂ (mapM_eq_ok_iff.mp h) hx

theorem exists_forall₂ {xs : List α} (h : ∀ x ∈ xs, ∃ y, R x y) : ∃ ys, Forall₂ R xs ys := by
  induction xs with
  | nil => exact ⟨[], .nil⟩
  | cons x xs ih =>
    obtain ⟨⟨y, hy⟩, hxs⟩ := forall_mem_cons.mp h
    obtain ⟨ys, hys⟩ := ih hxs
    exact ⟨y :: ys, .cons hy hys⟩

theorem exists_mapM_ok {f : α → Except ε β} {xs : List α} (h : ∀ x ∈ xs, ∃ y, f x = .ok y) :
    ∃ ys, xs.mapM f = .ok ys :=
  (exists_forall₂ h).imp fun _ => mapM_eq_ok_iff.mpr

theorem forall_mem_zipIdx_fst {xs : List α} {i : Nat} : (∀ x ∈ xs.zipIdx i, P x.1) ↔ ∀ x ∈ xs, P x := by
  conv_rhs => rw [← zipIdx_map_fst i xs, List.forall_mem_map]

/-- What a fallible step gives for the members of a row, one after another. -/
def row (f : α → Except ε (List β)) (xs : List α) : Except ε (List β) := (xs.mapM f).map flatten

/-- What a fallible step gives; nothing if it fails. -/
def given : Except ε (List β) → List β
  | .ok ys => ys
  | .error _ => []

section Row

variable {f : α → Except ε (List β)} {xs : List α} {zs : List β} {g : α → List β}

theorem row_cons (f : α → Except ε (List β)) (x : α) (xs : List α) :
    row f (x :: xs) = f x >>= fun own => row f xs >>= fun rest => .ok (own ++ rest) := by
  rw [row, mapM_cons, row]
  cases f x with
  | error e => rfl
  | ok own => cases xs.mapM f <;> rfl

theorem row_append (f : α → Except ε (List β)) (xs ys : List α) :
    row f (xs ++ ys) = row f xs >>= fun own => row f ys >>= fun rest => .ok (own ++ rest) := by
  rw [row, mapM_append, row, row]
  cases xs.mapM f with
  | error e => rfl
  | ok own => cases ys.mapM f <;> simp [Except.map, bind, Except.bind, pure, Except.pure]

theorem row_map {γ : Type} (f : α → Except ε (List β)) (g : γ → α) (xs : List γ) :
    row f (xs.map g) = row (fun x => f (g x)) xs := by
  rw [row, mapM_map]
  rfl

theorem row_iff (h : ∀ x ∈ xs, ∀ ys, f x = .ok ys ↔ P x ∧ ys = g x) :
    row f xs = .ok zs ↔ (∀ x ∈ xs, P x) ∧ zs = xs.flatMap g := by
  induction xs generalizing zs with
  | nil => simp [row, Except.map, pure, Except.pure, eq_comm]
  | cons x xs ih =>
    obtain ⟨hx, hxs⟩ := forall_mem_cons.mp h
    rw [row_cons, bind_append_eq_ok, forall_mem_cons, flatMap_cons]
    simp only [hx, ih hxs]
    constructor
    · rintro ⟨_, _, ⟨hP, rfl⟩, ⟨hall, rfl⟩, rfl⟩
      exact ⟨⟨hP, hall⟩, rfl⟩
    · rintro ⟨⟨hP, hall⟩, rfl⟩
      exact ⟨_, _, ⟨hP, rfl⟩, ⟨hall, rfl⟩, rfl⟩

theorem row_eq_ok_iff :
    row f xs = .ok zs ↔ (∀ x ∈ xs, ∃ ys, f x = .ok ys) ∧ zs = xs.flatMap fun x => given (f x) :=
  row_iff fun x _ ys => by cases f x <;> simp [given, eq_comm]

theorem row_of_ok (h : ∀ x ∈ xs, f x = .ok (g x)) : row f xs = .ok (xs.flatMap g) :=
  (@row_iff _ _ _ (fun _ => True) f xs _ g fun x hx ys => by simp [h x hx, eq_comm]).mpr ⟨fun _ _ => trivial, rfl⟩

theorem exists_row_iff : (∃ zs, row f xs = .ok zs) ↔ ∀ x ∈ xs, ∃ ys, f x = .ok ys := by
  simp only [row_eq_ok_iff, exists_and_left, exists_eq, and_true]

theorem mem_row_iff (h : row f xs = .ok zs) {z : β} : z ∈ zs ↔ ∃ x ∈ xs, ∃ ys, f x = .ok ys ∧ z ∈ ys := by
  obtain ⟨hall, rfl⟩ := row_eq_ok_iff.mp h
  rw [mem_flatMap]
  refine exists_congr fun x => and_congr_right fun hx => ?_
  obtain ⟨ys, hys⟩ := hall x hx
  simp [hys, given]

theorem eq_flatMap_of_row (h : row f xs = .ok zs) (hg : ∀ x ∈ xs, ∀ ys, f x = .ok ys → ys = g x) :
    zs = xs.flatMap g := by
  obtain ⟨hall, rfl⟩ := row_eq_ok_iff.mp h
  refine flatMap_congr fun x hx => ?_
  obtain ⟨ys, hys⟩ := hall x hx
  rw [hys]
  exact hg x hx ys hys

/-- What a row gives is distinct if what each member gives is, and no two members give the same. -/
theorem nodup_row {γ : Type} {key : β → γ} (h : row f xs = .ok zs)
    (hown : ∀ x ∈ xs, ∀ ys, f x = .ok ys → (ys.map key).Nodup)
    (hapart : xs.Pairwise fun x x' => ∀ ys ys', f x = .ok ys → f x' = .ok ys' → ∀ y ∈ ys, ∀ y' ∈ ys', key y ≠ key y') :
    (zs.map key).Nodup := by
  induction xs generalizing zs with
  | nil => cases h; exact nodup_nil
  | cons x xs ih =>
    rw [row_cons, bind_append_eq_ok] at h
    obtain ⟨own, rest, hx, hrest, rfl⟩ := h
    obtain ⟨hfirst, hlater⟩ := pairwise_cons.mp hapart
    rw [map_append, nodup_append]
    refine ⟨hown x mem_cons_self own hx, ih hrest (fun x' hx' => hown x' (mem_cons_of_mem x hx')) hlater, ?_⟩
    rw [List.forall_mem_map]
    intro y hy k hk
    obtain ⟨y', hy', rfl⟩ := mem_map.mp hk
    obtain ⟨x', hx', ys', hys', hy'⟩ := (mem_row_iff hrest).mp hy'
    exact hfirst x' hx' own ys' hx hys' y hy y' hy'

end Row

theorem foldlM_induction {f : β → α → Except ε β} {I : β → Prop} {xs : List α}
    (step : ∀ b, ∀ a ∈ xs, ∀ b', I b → f b a = .ok b' → I b') {b b' : β} (hb : I b) (h : xs.foldlM f b = .ok b') :
    I b' := by
  induction xs generalizing b with
  | nil =>
    cases h
    exact hb
  | cons a xs ih =>
    rw [foldlM_cons] at h
    obtain ⟨next, hnext, h⟩ := bind_eq_ok.mp h
    exact ih (fun b a ha => step b a (mem_cons_of_mem _ ha)) (step b a mem_cons_self next hb hnext) h

theorem filterMapM_cons_ok {f : α → Except ε (Option β)} {x : α} {xs : List α} :
    (x :: xs).filterMapM f = .ok ys ↔ ∃ y? zs, f x = .ok y? ∧ xs.filterMapM f = .ok zs ∧ ys = y?.toList ++ zs := by
  rw [filterMapM_cons, bind_eq_ok]
  constructor
  · rintro ⟨y?, hx, h⟩
    cases y? with
    | none => exact ⟨none, ys, hx, h, rfl⟩
    | some y =>
      obtain ⟨zs, hzs, h⟩ := bind_eq_ok.mp h
      cases h
      exact ⟨some y, zs, hx, hzs, rfl⟩
  · rintro ⟨y?, zs, hx, hzs, rfl⟩
    refine ⟨y?, hx, ?_⟩
    cases y? with
    | none => exact hzs
    | some y => exact bind_eq_ok.mpr ⟨zs, hzs, rfl⟩

theorem mem_of_filterMapM_ok {f : α → Except ε (Option β)} {xs : List α}
    (h : xs.filterMapM f = .ok ys) {y : β} (hy : y ∈ ys) : ∃ x ∈ xs, f x = .ok (some y) := by
  induction xs generalizing ys with
  | nil => cases h; cases hy
  | cons x xs ih =>
    obtain ⟨y?, zs, hx, hzs, rfl⟩ := filterMapM_cons_ok.mp h
    rcases mem_append.mp hy with hy | hy
    · rw [mem_toList] at hy
      exact ⟨x, mem_cons_self, hx.trans (congrArg _ hy)⟩
    · obtain ⟨x', hx', hf⟩ := ih hzs hy
      exact ⟨x', mem_cons_of_mem _ hx', hf⟩

theorem filterM_eq_ok_iff {f : α → Except ε Bool} {xs ys : List α} :
    xs.filterM f = .ok ys ↔ (∀ x ∈ xs, ∃ b, f x = .ok b) ∧ ys = xs.filter fun x => f x = .ok true := by
  have haux (acc zs : List α) : xs.filterAuxM f acc = .ok zs ↔
      (∀ x ∈ xs, ∃ b, f x = .ok b) ∧ zs = (xs.filter fun x => f x = .ok true).reverse ++ acc := by
    induction xs generalizing acc with
    | nil => simp [filterAuxM, pure, Except.pure, eq_comm]
    | cons x xs ih =>
      rw [filterAuxM, forall_mem_cons, filter_cons]
      cases f x with
      | error e => simp [bind, Except.bind]
      | ok b => cases b <;> simp [bind, Except.bind, ih]
  simp only [filterM, bind_eq_ok, haux, append_nil]
  constructor
  · rintro ⟨_, ⟨hok, rfl⟩, h⟩
    cases h
    exact ⟨hok, reverse_reverse _⟩
  · rintro ⟨hok, rfl⟩
    exact ⟨_, ⟨hok, rfl⟩, congrArg _ (reverse_reverse _)⟩

theorem filterM_of_ok {f : α → Except ε Bool} {g : α → Bool} {xs : List α} (h : ∀ x ∈ xs, f x = .ok (g x)) :
    xs.filterM f = .ok (xs.filter g) :=
  filterM_eq_ok_iff.mpr ⟨fun x hx => ⟨_, h x hx⟩, filter_congr fun x hx => by simp [h x hx]⟩

namespace Fields

variable {v : β} [BEq α] {fields pairs : List (α × β)} {key : α} {f : α × β}

@[simp] theorem get?_nil (key : α) : get? ([] : List (α × β)) key = none := rfl

theorem get?_cons (k key : α) (v : β) (rest : List (α × β)) :
    get? ((k, v) :: rest) key = if k == key then some v else get? rest key := by
  unfold get?
  rw [find?_cons]
  cases k == key <;> simp

theorem get?_append (xs ys : List (α × β)) (key : α) : get? (xs ++ ys) key = (get? xs key).or (get? ys key) := by
  unfold get?
  rw [find?_append]
  cases xs.find? (·.1 == key) <;> simp

/-- A key that is present is found again when it has been set. -/
theorem get?_insert_self {w : β} (h : get? fields key = some w) (v : β) : get? (insert fields key v) key = some v := by
  induction fields with
  | nil => simp at h
  | cons f rest ih =>
    obtain ⟨k, u⟩ := f
    rw [get?_cons] at h
    rw [insert]
    split
    · next hk => rw [get?_cons, if_pos hk]
    · next hk =>
      rw [if_neg hk] at h
      rw [get?_cons, if_neg hk, ih h]

theorem insert_of_get?_eq_none (h : get? fields key = none) (v : β) : insert fields key v = fields ++ [(key, v)] := by
  induction fields with
  | nil => rfl
  | cons f rest ih =>
    obtain ⟨k, u⟩ := f
    rw [get?_cons] at h
    split at h
    · cases h
    · next hk => rw [insert, if_neg hk, ih h, cons_append]

variable [LawfulBEq α]

theorem get?_insert (fields : List (α × β)) (k key : α) (v : β) :
    get? (insert fields k v) key = if k == key then some v else get? fields key := by
  induction fields with
  | nil => rw [insert, get?_cons]
  | cons f rest ih =>
    obtain ⟨k', v'⟩ := f
    rw [insert]
    split
    · next h =>
      obtain rfl := LawfulBEq.eq_of_beq h
      rw [get?_cons, get?_cons]
      split <;> rfl
    · next h =>
      rw [get?_cons, get?_cons, ih]
      by_cases h' : k' == key
      · obtain rfl := LawfulBEq.eq_of_beq h'
        have : ¬ (k == k') = true := fun e => h (by rw [LawfulBEq.eq_of_beq e]; exact BEq.rfl)
        simp [this]
      · simp [h']

theorem get?_erase (fields : List (α × β)) (k key : α) :
    get? (erase fields k) key = if k == key then none else get? fields key := by
  induction fields with
  | nil => simp [erase]
  | cons f rest ih =>
    obtain ⟨k', v'⟩ := f
    rw [erase] at ih ⊢
    by_cases hk : k' == k
    · obtain rfl := LawfulBEq.eq_of_beq hk
      rw [filter_cons_of_neg (by simp), ih, get?_cons]
      split <;> rfl
    · rw [filter_cons_of_pos (by simpa using hk), get?_cons, get?_cons, ih]
      by_cases hkey : k' == key
      · obtain rfl := LawfulBEq.eq_of_beq hkey
        have hne : ¬ (k == k') = true := fun e => hk (by rw [LawfulBEq.eq_of_beq e]; exact BEq.rfl)
        simp [hne]
      · simp [hkey]

theorem mem_keys_iff (fields : List (α × β)) (key : α) : key ∈ keys fields ↔ (get? fields key).isSome = true := by
  induction fields with
  | nil => simp [keys]
  | cons f rest ih =>
    obtain ⟨k, v⟩ := f
    rw [get?_cons]
    have ih' : key ∈ rest.map (·.1) ↔ (get? rest key).isSome = true := ih
    simp only [keys, map_cons, mem_cons, ih']
    by_cases h : k == key
    · simp [LawfulBEq.eq_of_beq h]
    · have : key ≠ k := fun e => h (by rw [e]; exact BEq.rfl)
      simp [h, this]

/-- The value that pairs give to a key, after what `fields` has. -/
theorem get?_foldl_insert (pairs fields : List (α × β)) (key : α) :
    get? (pairs.foldl (fun acc p => insert acc p.1 p.2) fields) key =
      (((pairs.filter (·.1 == key)).getLast?).map (·.2)).or (get? fields key) := by
  induction pairs generalizing fields with
  | nil => simp
  | cons p pairs ih =>
    rw [foldl_cons, ih, get?_insert, filter_cons]
    split
    · next h =>
      rw [getLast?_cons]
      cases (pairs.filter (·.1 == key)).getLast? <;> simp
    · rfl

theorem get?_ofPairs (pairs : List (α × β)) (key : α) :
    get? (ofPairs pairs) key = ((pairs.filter (·.1 == key)).getLast?).map (·.2) := by
  rw [ofPairs, get?_foldl_insert]
  simp

/-- Pairs with distinct keys are left as they are. -/
theorem ofPairs_of_nodup (h : (pairs.map (·.1)).Nodup) : ofPairs pairs = pairs := by
  have hfold (fields rest : List (α × β)) (hnodup : ((fields ++ rest).map (·.1)).Nodup) :
      rest.foldl (fun acc p => insert acc p.1 p.2) fields = fields ++ rest := by
    induction rest generalizing fields with
    | nil => simp
    | cons p rest ih =>
      have hnew : get? fields p.1 = none := by
        rw [eq_none_iff_forall_not_mem]
        intro v hv
        have hmem : p.1 ∈ keys fields := (mem_keys_iff fields p.1).mpr (by rw [mem_def.mp hv]; rfl)
        rw [map_append, nodup_append] at hnodup
        exact hnodup.2.2 _ hmem _ (mem_map.mpr ⟨p, mem_cons_self, rfl⟩) rfl
      rw [foldl_cons, insert_of_get?_eq_none hnew, ih _ (by simpa using hnodup)]
      simp
  exact hfold [] pairs h

theorem mem_of_mem_insert (h : f ∈ insert fields key v) : f ∈ fields ∨ f = (key, v) := by
  induction fields with
  | nil => exact .inr (mem_singleton.mp h)
  | cons g rest ih =>
    obtain ⟨k, w⟩ := g
    rw [insert] at h
    split at h
    · next hk =>
      obtain rfl := LawfulBEq.eq_of_beq hk
      obtain rfl | h := mem_cons.mp h
      · exact .inr rfl
      · exact .inl (mem_cons_of_mem _ h)
    · obtain rfl | h := mem_cons.mp h
      · exact .inl mem_cons_self
      · exact (ih h).imp_left (mem_cons_of_mem _)

theorem mem_of_mem_ofPairs (h : f ∈ ofPairs pairs) : f ∈ pairs := by
  refine foldlRecOn pairs _ (motive := fun fields => ∀ f ∈ fields, f ∈ pairs) (fun f hf => by cases hf)
    (fun fields hfields p hp f hf => ?_) f h
  obtain hf | rfl := mem_of_mem_insert hf
  · exact hfields f hf
  · exact hp

theorem filter_insert (test : α → Bool) (fields : List (α × β)) (key : α) (v : β) :
    (insert fields key v).filter (fun f => test f.1) =
      if test key then insert (fields.filter fun f => test f.1) key v else fields.filter fun f => test f.1 := by
  induction fields with
  | nil => cases hkey : test key <;> simp [insert, hkey]
  | cons f rest ih =>
    obtain ⟨k, w⟩ := f
    rw [insert]
    by_cases hk : (k == key) = true
    · obtain rfl := LawfulBEq.eq_of_beq hk
      cases htest : test k <;> simp [insert, htest]
    · rw [if_neg hk, filter_cons, filter_cons, ih]
      cases htest : test k <;> cases hkey : test key <;> simp [insert, hk]

/-- Pairs may be left out by their keys before or after. -/
theorem filter_ofPairs (test : α → Bool) (pairs : List (α × β)) :
    (ofPairs pairs).filter (fun f => test f.1) = ofPairs (pairs.filter fun f => test f.1) := by
  have hfold (fields : List (α × β)) :
      (pairs.foldl (fun acc p => insert acc p.1 p.2) fields).filter (fun f => test f.1) =
        (pairs.filter fun f => test f.1).foldl (fun acc p => insert acc p.1 p.2) (fields.filter fun f => test f.1) := by
    induction pairs generalizing fields with
    | nil => rfl
    | cons p pairs ih =>
      rw [foldl_cons, ih, filter_insert, filter_cons]
      split <;> rfl
  exact hfold []

theorem nodup_insert (h : (fields.map (·.1)).Nodup) (key : α) (v : β) : ((insert fields key v).map (·.1)).Nodup := by
  induction fields with
  | nil => exact pairwise_singleton _ key
  | cons f fields ih =>
    rw [insert]
    split
    · exact h
    · rename_i hne
      rw [map_cons, nodup_cons] at h ⊢
      refine ⟨fun hmem => ?_, ih h.2⟩
      obtain ⟨g, hg, hkey⟩ := mem_map.mp hmem
      obtain hg | rfl := mem_of_mem_insert hg
      · exact h.1 (hkey ▸ mem_map_of_mem hg)
      · exact hne (hkey ▸ BEq.rfl)

theorem nodup_ofPairs (pairs : List (α × β)) : ((ofPairs pairs).map (·.1)).Nodup := by
  have hfold (fields : List (α × β)) (h : (fields.map (·.1)).Nodup) :
      ((pairs.foldl (fun acc p => insert acc p.1 p.2) fields).map (·.1)).Nodup := by
    induction pairs generalizing fields with
    | nil => exact h
    | cons p pairs ih => exact ih _ (nodup_insert h p.1 p.2)
  exact hfold [] nodup_nil

theorem mem_keys_ofPairs (pairs : List (α × β)) (key : α) : key ∈ keys (ofPairs pairs) ↔ key ∈ keys pairs := by
  rw [mem_keys_iff, get?_ofPairs, isSome_map]
  constructor
  · intro h
    obtain ⟨p, hp⟩ := isSome_iff_exists.mp h
    obtain ⟨hmem, e⟩ := mem_filter.mp (mem_of_getLast? hp)
    exact mem_map.mpr ⟨p, hmem, LawfulBEq.eq_of_beq e⟩
  · intro h
    obtain ⟨p, hmem, rfl⟩ := mem_map.mp h
    have hp : p ∈ pairs.filter (·.1 == p.1) := mem_filter.mpr ⟨hmem, BEq.rfl⟩
    rw [getLast?_isSome]
    exact ne_nil_of_mem hp

theorem mem_of_get?_eq_some (h : get? fields key = some v) : (key, v) ∈ fields := by
  obtain ⟨⟨k, w⟩, hfind, rfl⟩ := map_eq_some_iff.mp h
  have hkey := find?_some hfind
  obtain rfl : k = key := by simpa using hkey
  exact mem_of_find?_eq_some hfind

theorem get?_of_nodup (hnodup : (fields.map (·.1)).Nodup) (h : (key, v) ∈ fields) : get? fields key = some v := by
  induction fields with
  | nil => cases h
  | cons f fields ih =>
    rw [map_cons, nodup_cons] at hnodup
    rw [get?_cons]
    obtain rfl | h := mem_cons.mp h
    · rw [if_pos (beq_self_eq_true key)]
    · have hne : f.1 ≠ key := fun heq => hnodup.1 (heq ▸ mem_map_of_mem h)
      rw [if_neg (by simpa using hne), ih hnodup.2 h]

end Fields

end ViewLint
