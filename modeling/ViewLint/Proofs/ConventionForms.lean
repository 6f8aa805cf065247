import ViewLint.Proofs.AsciiCase
import ViewLint.Proofs.Languages
import ViewLint.Rule.NamePattern

/-!
# The forms of names

Every convention has a form: which character a name starts with, and which ones follow. The written pattern of
the convention matches exactly the names of this form, and those with a line feed behind.

* `Convention.isForm`: the form of a convention.
* **`Convention.matches_iff`**: the pattern of a convention matches the names of its form.
-/

namespace ViewLint

open CharSet

/-- Whether a text starts with a character of one kind and goes on with characters of another. -/
def Text.opens (first more : CodePoint → Bool) : Text → Bool
  | [] => false
  | c :: r => first c && r.all more

theorem Text.opens_iff {first more : CodePoint → Bool} {s : Text} :
    Text.opens first more s = true ↔ ∃ c r, s = c :: r ∧ first c = true ∧ ∀ d ∈ r, more d = true := by
  cases s <;> simp [Text.opens]

namespace Convention

open Naming Text Pattern Computability

/-! ## Forms -/

/-- The characters that a name starts with. -/
def initial : Convention → CodePoint → Bool
  | pascal | screaming | title => isCapital
  | camel | snake | kebab | lower => isSmall

/-- The characters that a name goes on with. -/
def inner (k : Convention) (numbers : Bool) (c : CodePoint) : Bool :=
  match k with
  | pascal | camel => isSmall c || isCapital c || numbers && isAsciiDigit c
  | snake => isSmall c || numbers && isAsciiDigit c || c == '_'
  | kebab => isSmall c || numbers && isAsciiDigit c || c == '-'
  | screaming => isCapital c || numbers && isAsciiDigit c || c == '_'
  | title => isSmall c
  | lower => isSmall c || isBlank c

/-- Whether a name has the form of a convention; a title has it word by word. -/
def isForm (k : Convention) (numbers : Bool) (s : Text) : Bool :=
  match k with
  | title => (splitWhere isBlank s).all (opens title.initial (title.inner numbers))
  | k => opens k.initial (k.inner numbers) s

/-- A name has the form of a convention, up to a line feed at its end. -/
def Follows (k : Convention) (numbers : Bool) (s : Text) : Prop :=
  k.isForm numbers s = true ∨ ∃ t, k.isForm numbers t = true ∧ s = t ++ [.char '\n']

/-! ## Patterns -/

/-- The union of sets, as brackets write it. -/
def among (sets : List CharSet) : CharSet := sets.foldr .either .none

/-- The set of the characters that a name starts with. -/
def initialSet : Convention → CharSet
  | pascal | screaming | title => among [.upper]
  | camel | snake | kebab | lower => among [.lower]

/-- The set of the characters that a name goes on with. -/
def innerSet (k : Convention) (numbers : Bool) : CharSet :=
  let digits : List CharSet := if numbers then [.range '0' '9'] else []
  match k with
  | pascal | camel => among (.lower :: .upper :: digits)
  | snake => among (.lower :: digits ++ [.char '_'])
  | kebab => among (.lower :: digits ++ [.char '-'])
  | screaming => among (.upper :: digits ++ [.char '_'])
  | title => among [.lower]
  | lower => among [.lower, .blank]

def form (k : Convention) (numbers : Bool) : Pattern :=
  .seq .start (.seq (.set k.initialSet) (.seq (.many (k.innerSet numbers)) (match k with
    | title => .seq (.rep true 0 none (.group 1 (.seq (.set .blank) (.seq (.set k.initialSet)
        (.seq (.many (k.innerSet numbers)) .empty))))) (.seq .finish .empty)
    | _ => .seq .finish .empty)))

deriving instance DecidableEq for CharSet
deriving instance DecidableEq for Pattern

theorem parse_patternWith (k : Convention) (numbers : Bool) :
    Pattern.parse (k.patternWith numbers) = .ok (k.form numbers) := by
  cases k <;> cases numbers <;> decide +kernel

theorem has_among (sets : List CharSet) (c : CodePoint) : (among sets).has c = sets.any (·.has c) := by
  induction sets with
  | nil => rfl
  | cons a sets ih =>
    rw [List.any_cons, ← ih]
    rfl

theorem has_initialSet (k : Convention) : k.initialSet.has = k.initial := by
  have hupper : upper.has = isCapital := rfl
  have hlower : CharSet.lower.has = isSmall := rfl
  funext c
  cases k <;> simp [initialSet, has_among, hupper, hlower, initial]

theorem has_innerSet (k : Convention) (numbers : Bool) : (k.innerSet numbers).has = k.inner numbers := by
  have hupper : upper.has = isCapital := rfl
  have hlower : CharSet.lower.has = isSmall := rfl
  have hdigits : (range '0' '9').has = isAsciiDigit := rfl
  have hchar (d : CodePoint) : (char d).has = (· == d) := rfl
  have hblank : blank.has = isBlank := rfl
  funext c
  cases k <;> cases numbers <;>
    simp [innerSet, has_among, hupper, hlower, hdigits, hchar, hblank, inner, Bool.or_assoc]

/-! ## Matching -/

/-- One character of a set and any number of another. -/
theorem mem_letters_mul_kstar {first more : CharSet} {s : Text} :
    s ∈ letters first * (letters more)∗ ↔ opens first.has more.has s = true := by
  rw [opens_iff, Language.mem_mul]
  constructor
  · rintro ⟨_, ⟨x, hx, rfl⟩, r, hr, rfl⟩
    exact ⟨x, r, rfl, hx, mem_kstar_letters.mp hr⟩
  · rintro ⟨x, r, rfl, hx, hr⟩
    exact ⟨[x], ⟨x, hx, rfl⟩, r, mem_kstar_letters.mpr hr, rfl⟩

theorem isBlank_of_opens {numbers : Bool} {w : Text} (h : opens title.initial (title.inner numbers) w = true) :
    ∀ x ∈ w, isBlank x = false := by
  obtain ⟨c, r, rfl, hc, hr⟩ := opens_iff.mp h
  refine List.forall_mem_cons.mpr ⟨isBlank_of_alnum ?_, fun x hx => isBlank_of_alnum ?_⟩
  · have hcapital : isCapital c = true := hc
    simp [isAsciiAlnum, isAsciiLetter, hcapital]
  · have hsmall : isSmall x = true := hr x hx
    simp [isAsciiAlnum, isAsciiLetter, hsmall]

theorem matches_iff (k : Convention) (numbers : Bool) (s : Text) :
    ((k.form numbers).matchStart? s).isSome = true ↔ k.Follows numbers s := by
  -- One word, and the language of a whole name
  have hword : Reads s.length (.seq (.set k.initialSet) (.many (k.innerSet numbers)))
      (letters k.initialSet * (letters (k.innerSet numbers))∗) := reads_seq (reads_set _) (reads_many _)
  have hmem (t : Text) : t ∈ letters k.initialSet * (letters (k.innerSet numbers))∗ ↔
      opens k.initial (k.inner numbers) t = true := by
    rw [mem_letters_mul_kstar, has_initialSet, has_innerSet]
  have hplain (hform : ∀ t, k.isForm numbers t = opens k.initial (k.inner numbers) t) (hpattern : k.form numbers =
        .seq .start (.seq (.set k.initialSet) (.seq (.many (k.innerSet numbers)) (.seq .finish .empty)))) :
      ((k.form numbers).matchStart? s).isSome = true ↔ k.Follows numbers s := by
    rw [hpattern]
    refine (matchStart?_anchored hword).trans ?_
    simp only [Follows, hform, hmem]
  cases k with
  | pascal | camel | snake | kebab | screaming | lower => exact hplain (fun _ => rfl) rfl
  | title =>
    have hlater : Reads s.length (.seq (.set .blank) (.seq (.set title.initialSet)
        (.seq (.many (title.innerSet numbers)) .empty))) (letters .blank *
          (letters title.initialSet * (letters (title.innerSet numbers))∗)) := by
      have h : Reads s.length _ _ := reads_seq (reads_set .blank) (reads_seq (reads_set title.initialSet)
        (reads_seq (reads_many (title.innerSet numbers)) reads_empty))
      rwa [mul_one] at h
    have hnil : [] ∉ letters .blank * (letters title.initialSet * (letters (title.innerSet numbers))∗) := by
      intro h
      obtain ⟨_, ⟨b, -, rfl⟩, u, -, hu⟩ := Language.mem_mul.mp h
      cases hu
    have hall := reads_seq hword (reads_rep (reads_group 1 hlater) hnil)
    have hpieces (t : Text) : t ∈ letters title.initialSet * (letters (title.innerSet numbers))∗ *
        (letters .blank * (letters title.initialSet * (letters (title.innerSet numbers))∗))∗ ↔
          title.isForm numbers t = true := by
      have hfree : ∀ w ∈ letters title.initialSet * (letters (title.innerSet numbers))∗, ∀ x ∈ w,
          blank.has x = false := fun w hw => isBlank_of_opens ((hmem w).mp hw)
      rw [mem_separated_iff hfree]
      simp only [hmem]
      exact List.all_eq_true.symm
    refine (matchStart?_anchored hall).trans ?_
    simp only [Follows, hpieces]

end Convention

end ViewLint
