import ViewLint.Proofs.Component.Bindings
import ViewLint.Proofs.InnerEntries

/-!
# The order of the bindings

The types of bindings are met in document order. Where the entries fall into pieces of which no two tell types
for the same path, the types are those of the pieces, one piece after the other.

* **`Flat.filter_bindingTypes_flatMap`**: the types that are told piece by piece.
* **`Component.eq_of_diverging`**: two paths that part after a letter are those of one component.
* **`Component.path_ne_of_mem_expressionTransforms`**: no transform stands at the path of a plain property.
-/

namespace ViewLint

open List Text Fields CodePoint

variable {test : Text → Bool} {flat : Flat} {here : Text}

open View

/-! ## The types that are told piece by piece -/

namespace Flat

theorem has_bindingTypes_iff : has (bindingTypes flat) here = true ↔ ∃ e ∈ flat, isTypeAt here e.1 = true := by
  rw [has, get?_bindingTypes, Option.isSome_map, find?_isSome]

theorem exists_of_mem_bindingTypes {t : Text × Json} (h : t ∈ bindingTypes flat) :
    ∃ e ∈ flat, isTypeAt t.1 e.1 = true := by
  rw [← has_bindingTypes_iff, has, mem_bindingTypes_iff.mp h]
  rfl

theorem bindingTypes_concat (flat : Flat) (e : Text × Json) :
    bindingTypes (flat ++ [e]) = addType (bindingTypes flat) e := by
  rw [bindingTypes_eq, foldl_concat, ← bindingTypes_eq]

theorem bindingTypes_append (xs ys : Flat) :
    bindingTypes (xs ++ ys) =
      bindingTypes xs ++ (bindingTypes ys).filter fun t => !has (bindingTypes xs) t.1 := by
  induction ys using reverseRecOn with
  | nil => simp [bindingTypes]
  | append_singleton ys e ih =>
    have hhas (here : Text) : has (bindingTypes (xs ++ ys)) here =
        (has (bindingTypes xs) here || has (bindingTypes ys) here) := by
      rw [Bool.eq_iff_iff, Bool.or_eq_true, has_bindingTypes_iff, has_bindingTypes_iff, has_bindingTypes_iff]
      simp only [mem_append, or_and_right, exists_or]
    rw [← append_assoc, bindingTypes_concat, bindingTypes_concat, addType, addType, hhas, ih]
    split
    · cases hys : has (bindingTypes ys) (beforeLast ".binding.type" e.1) with
      | true => simp
      | false => cases hxs : has (bindingTypes xs) (beforeLast ".binding.type" e.1) <;> simp [hxs]
    · rfl

theorem filter_bindingTypes_flatMap {α : Type} {f : α → Flat} {xs : List α}
    (h : xs.Pairwise fun x y => ∀ here, test here = true → (∃ e ∈ f x, isTypeAt here e.1 = true) →
      ¬ ∃ e ∈ f y, isTypeAt here e.1 = true) :
    (bindingTypes (xs.flatMap f)).filter (fun t => test t.1) =
      xs.flatMap fun x => (bindingTypes (f x)).filter fun t => test t.1 := by
  induction xs with
  | nil => rfl
  | cons x xs ih =>
    obtain ⟨hx, hxs⟩ := pairwise_cons.mp h
    have hrest : ((bindingTypes (xs.flatMap f)).filter fun t => !has (bindingTypes (f x)) t.1).filter
        (fun t => test t.1) = (bindingTypes (xs.flatMap f)).filter fun t => test t.1 := by
      rw [filter_filter]
      refine filter_congr fun t ht => ?_
      cases htest : test t.1 with
      | false => rfl
      | true =>
        rw [Bool.true_and, Bool.not_eq_true', Bool.eq_false_iff, ne_eq, has_bindingTypes_iff]
        intro hown
        obtain ⟨e, he, htype⟩ := exists_of_mem_bindingTypes ht
        obtain ⟨y, hy, he⟩ := mem_flatMap.mp he
        exact hx y hy t.1 htest hown ⟨e, he, htype⟩
    rw [flatMap_cons, bindingTypes_append, filter_append, hrest, ih hxs, flatMap_cons]

/-- A piece that tells types for one path only. -/
theorem filter_bindingTypes_single (htest : test here = true)
    (h : ∀ there, test there = true → (∃ e ∈ flat, isTypeAt there e.1 = true) → there = here) :
    (bindingTypes flat).filter (fun t => test t.1) =
      ((flat.find? fun e => isTypeAt here e.1).map fun e => (here, e.2)).toList := by
  have hkey : (bindingTypes flat).filter (fun t => test t.1) = (bindingTypes flat).filter fun t => t.1 == here := by
    refine filter_congr fun t ht => ?_
    rw [Bool.eq_iff_iff, beq_iff_eq]
    exact ⟨fun hthere => h t.1 hthere (exists_of_mem_bindingTypes ht), fun heq => heq ▸ htest⟩
  have hnodup {fields : List (Text × Json)} (hnodup : (fields.map (·.1)).Nodup) :
      fields.filter (fun t => t.1 == here) = ((get? fields here).map (here, ·)).toList := by
    induction fields with
    | nil => rfl
    | cons t fields ih =>
      obtain ⟨key, v⟩ := t
      obtain ⟨hfirst, hrest⟩ := nodup_cons.mp hnodup
      rw [filter_cons, get?_cons, ih hrest]
      by_cases heq : key = here
      · subst heq
        have hnone : get? fields key = none := by
          rw [← Option.not_isSome_iff_eq_none]
          exact fun hsome => hfirst ((mem_keys_iff fields key).mpr hsome)
        simp [hnone]
      · simp [heq]
  rw [hkey, hnodup (nodup_bindingTypes flat), get?_bindingTypes, Option.map_map]
  rfl

end Flat

namespace Component

variable {p q : List Nat} {x : List Nat × Member}

/-! ## The members of the components -/

section Gather

variable {α β : Type} {first last : Shape → List α}

/-- What comes of each thing that is gathered. -/
theorem gather_flatMap (f : α → List β) (c : Component) :
    gather (fun s => (first s).flatMap f) (fun s => (last s).flatMap f) c =
      (gather first last c).flatMap fun x => (f x.2).map (x.1, ·) := by
  induction c using induction with
  | h s cs ih =>
    have hrow : gatherRow (fun s => (first s).flatMap f) (fun s => (last s).flatMap f) 0 cs =
        (gatherRow first last 0 cs).flatMap fun x => (f x.2).map (x.1, ·) := by
      rw [gatherRow_eq, gatherRow_eq, flatMap_assoc]
      refine flatMap_congr fun e he => ?_
      rw [ih e.1 (fst_mem_of_mem_zipIdx he), map_flatMap, flatMap_map]
      simp [Function.comp_def]
    rw [gather, gather, hrow, flatMap_append, flatMap_append, flatMap_map,
      flatMap_map, map_flatMap, map_flatMap]

end Gather

/-- The members of the components of a tree, in document order, each with the position of its component. -/
def members (c : Component) : List (List Nat × Member) := c.gather (·.before) (·.after)

theorem mem_members_iff {c : Component} : x ∈ c.members ↔ ∃ d, c.at? x.1 = some d ∧ x.2 ∈ d.shape.members :=
  mem_gather_iff

theorem isSome_of_mem_members {c : Component} (h : x ∈ c.members) : (c.at? x.1).isSome = true := by
  obtain ⟨d, hd, -⟩ := mem_members_iff.mp h
  rw [hd]
  rfl

/-- The position of a component and the key tell the member. -/
theorem nodup_members (c : Component) : (c.members.map fun x => (x.1, x.2.key)).Nodup :=
  nodup_map_gather Member.key fun _ d _ => d.shape.distinct

variable (kind : ObjectKind)

theorem listing_eq (c : Component) :
    c.listing kind = c.members.flatMap fun x => shift (c.pathAt "root" x.1) (x.2.leaves kind) := by
  rw [listing, leaves, gather_flatMap, map_flatMap, members]
  refine flatMap_congr fun x _ => ?_
  rw [map_map, shift]
  rfl

theorem isOwn_propConfig (t : Text) : IsOwn (".propConfig." ++ t) := by
  rintro ⟨r, hr⟩
  simp [ofString] at hr

/-- A path below the configuration of a component tells the component and the member. -/
theorem of_path_propConfig {c : Component} (hx : x ∈ c.members) {l : Text × Json}
    (hl : l ∈ x.2.leaves kind) (hp : (c.at? p).isSome = true) {t : Text}
    (h : c.pathAt "root" x.1 ++ l.1 = c.pathAt "root" p ++ (".propConfig." ++ t)) :
    x.1 = p ∧ l.1 = ".propConfig." ++ t ∧ x.2.key = "propConfig" := by
  obtain ⟨hpos, hpath⟩ := eq_of_pathAt_append (isSome_of_mem_members hx) hp (x.2.isOwn_of_mem_leaves kind hl)
    (isOwn_propConfig t) h
  refine ⟨hpos, hpath, ?_⟩
  obtain ⟨r, hr⟩ := x.2.prefix_of_mem_leaves kind hl
  rw [hpath] at hr
  cases hm : x.2 with
  | propConfig v => rfl
  | name n | type v =>
    rw [hm] at hr
    simp [Member.head, Member.key, ofString] at hr

/-! ## Where two paths part -/

theorem prefix_of_append_cons {w u s v : Text} {stop : CodePoint} (h : w ++ u = s ++ [stop] ++ v) (hw : stop ∉ w) :
    w <+: s := by
  rw [append_assoc, singleton_append] at h
  exact (prefix_append_stop hw).mp ⟨u, h⟩

theorem eq_append_of_diverging {a u v s r t : Text} {x y : CodePoint} (hne : x ≠ y) (hu : a ++ u = s ++ x :: r)
    (hv : a ++ v = s ++ y :: t) : ∃ w, s = a ++ w ∧ u = w ++ x :: r ∧ v = w ++ y :: t := by
  obtain ⟨w, rfl, hw⟩ | ⟨w, rfl, hw⟩ := append_eq_append_iff.mp hu
  · rw [append_assoc, append_right_inj] at hv
    exact ⟨w, rfl, hw, hv⟩
  · cases w with
    | nil =>
      rw [append_nil, append_right_inj] at hv
      exact ⟨[], by simp, hw.symm, hv⟩
    | cons z w =>
      rw [append_assoc, append_right_inj] at hv
      exact absurd ((cons.inj hw).1.trans (cons.inj hv).1) hne

/-- Two texts that part behind a letter: it is the end of what they begin with, or both have it. -/
theorem diverging_cases {a u v s r t : Text} {letter x y : CodePoint} (hne : x ≠ y)
    (hu : a ++ u = s ++ [letter] ++ x :: r) (hv : a ++ v = s ++ [letter] ++ y :: t) :
    (s ++ [letter] = a ∧ u = x :: r ∧ v = y :: t) ∨
      ∃ z, u = z ++ [letter] ++ x :: r ∧ v = z ++ [letter] ++ y :: t := by
  obtain ⟨z, hz, hu, hv⟩ := eq_append_of_diverging hne hu hv
  rcases eq_nil_or_concat' z with rfl | ⟨z, last, rfl⟩
  · exact .inl ⟨by simpa using hz, hu, hv⟩
  · rw [← append_assoc] at hz
    obtain rfl : letter = last := singleton_inj.mp (append_inj_right' hz rfl)
    exact .inr ⟨z, hu, hv⟩

section Diverging

variable {c : Component} {base : Text} {letter : CodePoint} (hstep : letter ∉ (".children[" : Text))

include hstep

/-- What a component has of its own parts from a child before a letter that is not on the way there. -/
theorem not_diverging_child {i : Nat} (hq : (c.at? (i :: q)).isSome = true) {l l' s r t : Text}
    (hown : IsOwn l) (hdot : ("." : Text) <+: l) {x y : CodePoint} (hne : x ≠ y)
    (hu : c.pathAt base [] ++ l = s ++ [letter] ++ x :: r)
    (hv : c.pathAt base (i :: q) ++ l' = s ++ [letter] ++ y :: t) : False := by
  obtain ⟨w, hw⟩ := exists_pathAt_cons hq base
  have hv' : c.pathAt base [] ++ (".children[" ++ (natText i ++ "]" ++ w ++ l')) = s ++ [letter] ++ y :: t := by
    rw [← hv, hw]
    simp [View.item, ofString]
  obtain ⟨-, rfl, hchild⟩ | ⟨z, rfl, hchild⟩ := diverging_cases hne hu hv'
  · -- Both go on with a dot.
    obtain ⟨r', hr'⟩ := hdot
    refine hne ?_
    rw [← (cons.inj hr').1]
    exact (cons.inj hchild).1
  · obtain ⟨z', rfl⟩ := prefix_of_append_cons hchild hstep
    exact hown ⟨z' ++ [letter] ++ x :: r, by simp⟩

theorem eq_of_diverging (hdigit : ∀ i, letter ∉ (natText i ++ "]" : Text))
    (hp : (c.at? p).isSome = true) (hq : (c.at? q).isSome = true) {l l' s r t : Text} (hown : IsOwn l)
    (hdot : ("." : Text) <+: l) (hown' : IsOwn l') (hdot' : ("." : Text) <+: l') {x y : CodePoint} (hne : x ≠ y)
    (hu : c.pathAt base p ++ l = s ++ [letter] ++ x :: r) (hv : c.pathAt base q ++ l' = s ++ [letter] ++ y :: t) :
    p = q := by
  induction p generalizing c base q with
  | nil =>
    cases q with
    | nil => rfl
    | cons j q => exact (not_diverging_child hstep hq hown hdot hne hu hv).elim
  | cons i p ih =>
    cases q with
    | nil => exact (not_diverging_child hstep hp hown' hdot' hne.symm hv hu).elim
    | cons j q =>
      obtain rfl : i = j := by
        obtain ⟨w, hw⟩ := exists_pathAt_cons hp base
        obtain ⟨w', hw'⟩ := exists_pathAt_cons hq base
        have hu' : c.pathAt base [] ++ ".children[" ++ (natText i ++ "]" ++ (w ++ l)) = s ++ [letter] ++ x :: r := by
          rw [← hu, hw]
          simp [View.item, ofString]
        have hv' : c.pathAt base [] ++ ".children[" ++ (natText j ++ "]" ++ (w' ++ l')) = s ++ [letter] ++ y :: t := by
          rw [← hv, hw']
          simp [View.item, ofString]
        obtain ⟨hz, -⟩ | ⟨z, hi, hj⟩ := diverging_cases hne hu' hv'
        · -- The letter would be the bracket.
          have hlast := congrArg getLast? hz
          simp [ofString] at hlast
          exact absurd (by rw [hlast]; decide) hstep
        · obtain ⟨z', rfl⟩ := prefix_of_append_cons hi (hdigit i)
          obtain ⟨z'', hz''⟩ := prefix_of_append_cons hj (hdigit j)
          have hitems : View.item [] i ++ z' = View.item [] j ++ z'' := by
            simp only [View.item, append_assoc, nil_append] at hz'' ⊢
            rw [hz'']
          exact (item_append_inj hitems).1
      obtain ⟨e, he, hp⟩ := of_isSome_at?_cons hp
      obtain ⟨e', he', hq⟩ := of_isSome_at?_cons hq
      obtain rfl : e = e' := Option.some.inj (he.symm.trans he')
      rw [pathAt_cons he] at hu hv
      exact congrArg _ (ih hp hq hu hv)

end Diverging

/-! ## Transforms -/

/-- Below a property, the way to the transforms of a binding is a part of the key. -/
theorem infix_of_transforms {a w key r : Text} (h : here ++ ("." ++ ("binding" ++ ".t")) = a ++ w)
    (hw : "." ++ ("propConfig" ++ ("." ++ key ++ ".type")) = w ++ ("ransforms" ++ r)) :
    (".binding." : Text) <:+: "." ++ key := by
  -- The way begins below the component: no end of it goes on like a property.
  have hends : ∀ u ∈ (ofString ".binding.t").tails, ¬ ofString ".p" <+: u ++ ofString "ransforms" := by decide
  have hstart : ofString ".p" <+: w ++ ofString "ransforms" :=
    prefix_of_prefix_length_le ⟨_, hw⟩ ⟨r, append_assoc ..⟩ (by simp [ofString])
  obtain ⟨z, rfl⟩ : ∃ z, w = z ++ ("." ++ ("binding" ++ ".t")) := by
    obtain ⟨z, -, hz⟩ | ⟨z, -, hz⟩ := append_eq_append_iff.mp h
    · exact absurd hstart (hends w ((mem_tails _ _).mpr ⟨z, hz.symm⟩))
    · exact ⟨z, hz⟩
  -- It begins behind the word for the configuration.
  cases z with
  | nil => simp [ofString] at hw
  | cons x z =>
    obtain ⟨-, hw⟩ := cons.inj hw
    have hz : ofString "propConfig" ++ (ofString "." ++ key ++ ofString ".type") =
        z ++ [char '.'] ++ (ofString "binding.transforms" ++ r) := by
      refine hw.trans ?_
      simp [ofString]
    obtain ⟨u, rfl⟩ := prefix_of_append_cons hz (by decide)
    have hkey : "." ++ key ++ ".type" = u ++ ".binding." ++ ("transforms" ++ r) := by
      refine append_cancel_left (hz.trans ?_)
      simp [ofString]
    obtain ⟨v, hv, htype⟩ | ⟨v, hv, -⟩ := append_eq_append_iff.mp hkey
    · have hlength := congrArg length htype
      simp [ofString] at hlength
      omega
    · exact ⟨u, v, hv.symm⟩

theorem path_ne_of_mem_expressionTransforms {c : Component}
    (hhere : ∃ e ∈ c.listing kind, Flat.isTypeAt here e.1 = true) {n : Node}
    (hn : n ∈ Flat.expressionTransforms (c.listing kind) here) (hp : (c.at? p).isSome = true)
    {key : Text} (hkey : ¬ (".binding." : Text) <:+: "." ++ key) :
    n.path ≠ c.pathAt "root" p ++ (".propConfig." ++ key) := by
  intro hpath
  obtain ⟨t, ht, rfl⟩ := mem_map.mp hn
  replace hpath : t.1 = _ := hpath
  obtain ⟨-, v, r, hmem, hr⟩ := Flat.of_mem_transformsOf ht
  obtain ⟨e, he, htype⟩ := hhere
  obtain ⟨rest, hcut⟩ := Flat.isTypeAt_iff.mp htype
  obtain ⟨⟨q, l⟩, hl, hentry⟩ := mem_map.mp hmem
  obtain ⟨⟨q', l'⟩, hl', rfl⟩ := mem_map.mp he
  have hdot {x : List Nat × (Text × Json)} (hx : x ∈ c.leaves kind) : ("." : Text) <+: x.2.1 := by
    obtain ⟨d, -, m, -, hm⟩ := (mem_leaves_iff kind).mp hx
    exact (prefix_append _ _).trans (m.prefix_of_mem_leaves kind hm)
  have hway : c.pathAt "root" q ++ l.1 = here ++ ofString ".binding." ++ [char 't'] ++
      char 'r' :: (ofString "ansforms" ++ r) := by
    refine (congrArg Prod.fst hentry).trans (hr.trans ?_)
    simp [ofString]
  have hother : c.pathAt "root" q' ++ l'.1 = here ++ ofString ".binding." ++ [char 't'] ++
      char 'y' :: (ofString "pe" ++ rest) := by
    refine (rcut?_eq_some hcut).trans ?_
    simp [ofString]
  obtain ⟨rfl, hproperty⟩ : q = p ∧ l.1 = ".propConfig." ++ (key ++ ".type") := by
    refine eq_of_pathAt_append (isSome_of_mem_leaves kind hl) hp (isOwn_of_mem_leaves kind hl) (isOwn_propConfig _)
      ((congrArg Prod.fst hentry).trans ?_)
    rw [hpath, append_assoc, append_assoc]
  obtain rfl : q = q' := eq_of_diverging (by decide)
    (fun i hi => (mem_append.mp hi).elim (not_mem_natText 't' (by decide) i) (by decide))
    (isSome_of_mem_leaves kind hl) (isSome_of_mem_leaves kind hl') (isOwn_of_mem_leaves kind hl) (hdot hl)
    (isOwn_of_mem_leaves kind hl') (hdot hl') (by decide) hway hother
  obtain ⟨w, hw, hleft, -⟩ := eq_append_of_diverging (by decide) hway hother
  have hbegin : here ++ ("." ++ ("binding" ++ ".t")) = c.pathAt "root" q ++ w := by
    rw [← hw]
    simp [ofString]
  have hend : "." ++ ("propConfig" ++ ("." ++ key ++ ".type")) = w ++ ("ransforms" ++ r) := by
    refine Eq.trans ?_ (hproperty.symm.trans (hleft.trans ?_)) <;> simp [ofString]
  exact hkey (infix_of_transforms hbegin hend)

end Component

end ViewLint
