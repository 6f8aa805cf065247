import ViewLint.Number.Basic

/-!
# JSON values

Objects keep their fields in the order of writing. An integer keeps all its digits and is apart from
a number with a fraction or an exponent.
-/

namespace ViewLint

/-- The key of a field. Documents are read with names only; a field that is added under another value
is apart from the one whose name is spelled like it. -/
inductive Key where
  | name (s : Text)
  | null
  | bool (b : Bool)
  | int (n : Int)
  | float (x : Binary64)
  deriving DecidableEq

namespace Key

def number? : Key → Option Number
  | .bool b => some (.int (if b then 1 else 0))
  | .int n => some (.int n)
  | .float x => some (.float x)
  | _ => none

/-- Whether two keys select the same field: numbers are compared as numbers. -/
def same (a b : Key) : Bool :=
  match a.number?, b.number? with
  | some m, some n => m.compare? n == some .eq
  | _, _ => decide (a = b)

instance : BEq Key := ⟨same⟩

end Key

inductive ObjectKind where
  | plain
  /-- The order is part of the object: it is shown, and objects of two orders differ. -/
  | ordered
  deriving DecidableEq

inductive Json where
  | null
  | bool (b : Bool)
  | int (n : Int)
  | float (x : Binary64)
  | str (s : Text)
  | arr (items : List Json)
  | obj (kind : ObjectKind) (fields : List (Key × Json))

instance : Inhabited Json := ⟨.null⟩

def Key.toJson : Key → Json
  | .name s => .str s
  | .null => .null
  | .bool b => .bool b
  | .int n => .int n
  | .float x => .float x

def Json.key? : Json → Option Key
  | .null => some .null
  | .bool b => some (.bool b)
  | .int n => some (.int n)
  | .float x => some (.float x)
  | .str s => some (.name s)
  | .arr _ => none
  | .obj _ _ => none

/-! ## Fields -/

namespace Fields

variable {α β : Type}

def get? [BEq α] (fields : List (α × β)) (key : α) : Option β :=
  (fields.find? (·.1 == key)).map (·.2)

def has [BEq α] (fields : List (α × β)) (key : α) : Bool := (get? fields key).isSome

/-- Sets the value at a key: a known key keeps its place, a new one goes to the end. -/
def insert [BEq α] : List (α × β) → α → β → List (α × β)
  | [], key, value => [(key, value)]
  | (k, v) :: rest, key, value =>
    if k == key then (k, value) :: rest else (k, v) :: insert rest key value

def erase [BEq α] (fields : List (α × β)) (key : α) : List (α × β) :=
  fields.filter fun f => !(f.1 == key)

def ofPairs [BEq α] (pairs : List (α × β)) : List (α × β) :=
  pairs.foldl (fun acc p => insert acc p.1 p.2) []

def modify [BEq α] (fields : List (α × β)) (key : α) (default : β) (f : β → β) : List (α × β) :=
  insert fields key (f ((get? fields key).getD default))

def keys (fields : List (α × β)) : List α := fields.map (·.1)

end Fields

namespace Json

def object (fields : List (Text × Json)) : Json :=
  .obj .plain (fields.map fun f => (.name f.1, f.2))

def get? : Json → Text → Option Json
  | .obj _ fields, key => Fields.get? fields (.name key)
  | _, _ => none

def str? : Json → Option Text
  | .str s => some s
  | _ => none

def items? : Json → Option (List Json)
  | .arr items => some items
  | _ => none

def fields? : Json → Option (List (Text × Json))
  | .obj _ fields => some (fields.filterMap fun
      | (.name key, v) => some (key, v)
      | _ => none)
  | _ => none

/-- Whether a value counts as true: zero, the empty string, the empty array, the empty object, null
and false do not. -/
def isTrue : Json → Bool
  | .null => false
  | .bool b => b
  | .int n => n != 0
  | .float x => !x.isZero
  | .str s => !s.isEmpty
  | .arr items => !items.isEmpty
  | .obj _ fields => !fields.isEmpty

def isContainer : Json → Bool
  | .arr _ => true
  | .obj _ _ => true
  | _ => false

def number? : Json → Option Number
  | .bool b => some (.int (if b then 1 else 0))
  | .int n => some (.int n)
  | .float x => some (.float x)
  | _ => none

def isNumber (v : Json) : Bool := v.number?.isSome

def int? : Json → Option Int
  | .bool b => some (if b then 1 else 0)
  | .int n => some n
  | _ => none

def ofNumber : Number → Json
  | .int n => .int n
  | .float x => .float x

def compareNumbers? (a b : Json) : Option Ordering := do (← a.number?).compare? (← b.number?)

mutual

/-- Equality of values. Numbers are compared as numbers, objects without regard to order unless both
are ordered. -/
def equals : Json → Json → Bool
  | .null, .null => true
  | .str s, .str t => s == t
  | .arr xs, .arr ys => equalsItems xs ys
  | .obj k fs, .obj l gs =>
    fs.length == gs.length && equalsFields fs gs
      && (k == .plain || l == .plain || Fields.keys fs == Fields.keys gs)
  | a, b => compareNumbers? a b == some .eq

def equalsItems : List Json → List Json → Bool
  | [], [] => true
  | x :: xs, y :: ys => equals x y && equalsItems xs ys
  | _, _ => false

def equalsFields : List (Key × Json) → List (Key × Json) → Bool
  | [], _ => true
  | (k, v) :: rest, gs =>
    (match Fields.get? gs k with
      | some w => equals v w
      | none => false) && equalsFields rest gs

end

mutual

def ordered : Json → Json
  | .arr items => .arr (orderedItems items)
  | .obj _ fields => .obj .ordered (orderedFields fields)
  | v => v

def orderedItems : List Json → List Json
  | [] => []
  | x :: rest => ordered x :: orderedItems rest

def orderedFields : List (Key × Json) → List (Key × Json)
  | [] => []
  | (k, v) :: rest => (k, ordered v) :: orderedFields rest

end

end Json

end ViewLint
