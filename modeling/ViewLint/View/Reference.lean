import ViewLint.Fix.Basic
import ViewLint.Pattern.Basic
import ViewLint.View.Locator

/-!
# References to components by name

A string of a view may mention a component: in an expression between braces, as the target of a
property binding, or in a script that asks for a sibling or a child.
-/

namespace ViewLint

inductive ReferenceKind where
  | expression
  | propertyBinding
  | script
  deriving DecidableEq

def ReferenceKind.name : ReferenceKind → Text
  | .expression => "expression"
  | .propertyBinding => "property_binding"
  | .script => "script"

def ReferenceKind.words : ReferenceKind → Text
  | .expression => "expression"
  | .propertyBinding => "property binding"
  | .script => "script"

structure Reference where
  place : Path
  kind : ReferenceKind
  context : Text

namespace Reference

/-- A relative reference between braces; the second group is what follows the dots. -/
def expressionPattern : Pattern :=
  .cat [.rep true 1 (some 2) (.lit "\x7b"), .group 1 (.cat [.lit ".", .many1 (.char '.')]), .lit "/",
    .group 2 (.many1 (.except (.char '\x7d'))), .rep true 1 (some 2) (.lit "\x7d")]

def relativePattern : Pattern :=
  .cat [.start, .group 1 (.cat [.lit ".", .many1 (.char '.')]), .lit "/", .group 2 (.many1 .any),
    .finish]

def steps (s : Text) : List Text :=
  Text.splitWhere (fun c => c == '.' || c == '/') s

def inExpression (value name : Text) : Bool :=
  (expressionPattern.findAll value).any fun m => (steps (m.groupText 2)).contains name

def inRelativePath (value name : Text) : Bool :=
  match relativePattern.matchStart? value with
  | some m => (steps (m.groupText 2)).contains name
  | none => false

def scriptCalls (name : Text) : List Text :=
  let calls : List Text := [".getSibling(", ".getChild("]
  let quotes : List Text := ["'", "\""]
  calls.flatMap fun call => quotes.flatMap fun opening => quotes.map fun closing =>
    call ++ opening ++ name ++ closing ++ ")"

def inScript (value name : Text) : Bool := (scriptCalls name).any (Text.holds value)

def kindIn? (value name : Text) : Option ReferenceKind :=
  if inExpression value name then some .expression
  else if inRelativePath value name then some .propertyBinding
  else if inScript value name then some .script
  else none

/-- The reference that an entry of a view is to a name, where its place is known. Only a text can be
looked for. -/
def inString? (locator : Locator) (name : Json) (entry : Text × Json) :
    Except Fault (Option Reference) :=
  match entry.2, name with
  | .str value, .str name =>
    .ok ((kindIn? value name).bind fun kind =>
      match locator.place? (.str entry.1) with
      | some (step :: rest) => some ⟨step :: rest, kind, value⟩
      | _ => none)
  | .str _, other =>
    .error (.badKind ("decoding to str: need a bytes-like object, " ++ other.kindName ++ " found"))
  | _, _ => .ok none

def find (flat : Flat) (locator : Locator) (name : Json) : Except Fault (List Reference) :=
  flat.filterMapM (inString? locator name)

def asksOwnName (flat : Flat) (path : Text) : Bool :=
  flat.any fun (p, v) =>
    match v with
    | .str value => Text.startsWith p path && Text.holds value "this.meta.name"
    | _ => false

def renameOperations (old new : Json) (refs : List Reference) : List Operation :=
  refs.map fun r =>
    { path := r.place
      change := .replace old new
      description := "Update " ++ r.kind.words ++ " reference: '" ++ old.display ++ "' -> '"
        ++ new.display ++ "'" }

end Reference

end ViewLint
