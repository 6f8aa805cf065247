import ViewLint.Json.Printer
import ViewLint.Text.Blank

/-!
# The text of a view document

Five characters that have a meaning in markup are written as escapes in view documents.
-/

namespace ViewLint.View

def markupEscapes : List (CodePoint × Text) :=
  [('\'', "\\u0027"), ('<', "\\u003c"), ('>', "\\u003e"), ('&', "\\u0026"), ('=', "\\u003d")]

def escapeMarkup (s : Text) : Text :=
  s.flatMap fun c => (markupEscapes.lookup c).getD [c]

/-- A document as it is stored: indented by two, with the characters of markup escaped. -/
def format (v : Json) : Text := escapeMarkup (Text.stripEnd (v.render .document))

def placeholders : List (Text × Text) :=
  [("\\u003c", "UNICODE_LT"), ("\\u003e", "UNICODE_GT"), ("\\u0026", "UNICODE_AMP"),
    ("\\u003d", "UNICODE_EQ"), ("\\u0027", "UNICODE_APOS")]

def preserveEscapes (text : Text) : Text :=
  placeholders.foldl (fun s p => Text.replace p.1 p.2 s) text

def restoreEscapes (text : Text) : Text :=
  placeholders.foldl (fun s p => Text.replace p.2 p.1 s) text

end ViewLint.View
