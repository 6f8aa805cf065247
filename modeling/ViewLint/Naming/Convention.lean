import ViewLint.Text.Blank
import ViewLint.Text.Case
import ViewLint.Text.Search

/-!
# Naming conventions

A convention says how the words of a name are written. A name is cut into its words, at delimiters or
at capital letters, and put together again by the convention. Known abbreviations keep their capitals
where the convention has capitals at all.
-/

namespace ViewLint

inductive Convention where
  | pascal
  | camel
  | snake
  | kebab
  | screaming
  | title
  | lower
  deriving DecidableEq

namespace Convention

def name : Convention → Text
  | pascal => "PascalCase"
  | camel => "camelCase"
  | snake => "snake_case"
  | kebab => "kebab-case"
  | screaming => "SCREAMING_SNAKE_CASE"
  | title => "Title Case"
  | lower => "lower case"

def all : List Convention := [pascal, camel, snake, kebab, screaming, title, lower]

def ofName? (s : Text) : Option Convention := all.find? (·.name == s)

def pattern : Convention → Text
  | pascal => "^[A-Z][a-zA-Z0-9]*$"
  | camel => "^[a-z][a-zA-Z0-9]*$"
  | snake => "^[a-z][a-z0-9_]*$"
  | kebab => "^[a-z][a-z0-9-]*$"
  | screaming => "^[A-Z][A-Z0-9_]*$"
  | title => "^[A-Z][a-z]*(\\s[A-Z][a-z]*)*$"
  | lower => "^[a-z][a-z\\s]*$"

def patternWith (c : Convention) (numbers : Bool) : Text :=
  if numbers then c.pattern else Text.replace "0-9" "" c.pattern

def description : Convention → Text
  | lower => "lower case with spaces (e.g., my button, data table)"
  | c => c.name

end Convention

namespace Naming

/-! ## Words -/

def isDelimiter (c : CodePoint) : Bool := c == '-' || c == '_' || isBlank c

def isCapital (c : CodePoint) : Bool := 65 ≤ c.toNat && c.toNat ≤ 90

def isSmall (c : CodePoint) : Bool := 97 ≤ c.toNat && c.toNat ≤ 122

/-- The words of a name without delimiters: a capital with the small letters after it, or a run of
small letters. Other characters are dropped. -/
def humps : Text → List Text
  | [] => []
  | c :: r =>
    let rest := humps r
    if isCapital c || isSmall c then
      match r, rest with
      | d :: _, word :: more => if isSmall d then (c :: word) :: more else [c] :: rest
      | _, _ => [c] :: rest
    else rest

/-- The words of a name. A name without delimiters is cut at its capitals if that gives more than one
word. -/
def words (name : Text) : List Text :=
  let core := Text.strip name
  if core.any isDelimiter then (Text.splitWhere isDelimiter core).filter (!·.isEmpty)
  else if core.isEmpty then []
  else
    let cut := humps name
    if 1 < cut.length then cut else [core]

/-! ## Abbreviations -/

def commonAbbreviations : List Text :=
  List.map Text.ofString ["API", "HTTP", "HTTPS", "XML", "JSON", "SQL", "URL", "URI", "UUID", "CPU",
    "GPU", "RAM", "SSD", "HDD", "PDF", "CSV", "ZIP", "GIF", "PNG", "JPG", "JPEG", "SVG", "CSS", "HTML", "JS", "TS",
    "PHP", "ASP", "JSP", "CGI", "FTP", "SSH", "TCP", "UDP", "IP", "DNS", "DHCP", "VPN", "SSL",
    "TLS", "JWT", "CRUD", "REST", "SOAP", "AJAX", "DOM", "UI", "UX", "GUI", "CLI", "OS", "iOS",
    "macOS", "AWS", "GCP", "IBM", "AI", "ML", "NLP", "OCR", "QR", "RFID", "NFC", "GPS", "LED",
    "LCD", "OLED", "CRT", "ID"]

def longestFirst (abbreviations : List Text) : List Text :=
  abbreviations.mergeSort fun a b => b.length ≤ a.length

/-- A set of abbreviations in the order in which they are tried: longer ones first, then by code
points. -/
def tryOrder (abbreviations : List Text) : List Text :=
  longestFirst (Text.sort (Text.dedup abbreviations))

def capitalizeAbbreviation (name abbreviation : Text) : Text :=
  [Text.upper abbreviation, Text.lower abbreviation, Text.capitalize abbreviation].foldl
    (fun s variant => Text.replace variant (Text.upper abbreviation) s) name

def blankSplit (s : Text) : List Text :=
  (Text.splitWhere isBlank s).filter (!·.isEmpty)

def capitalizeWords (name abbreviation : Text) : Text :=
  Text.join " " ((blankSplit name).map fun word =>
    if Text.upper word == Text.upper abbreviation then Text.upper abbreviation else word)

end Naming

namespace Convention

open Naming

def adjustOne (c : Convention) (name abbreviation : Text) : Text :=
  match c with
  | pascal | camel => capitalizeAbbreviation name abbreviation
  | snake | kebab => Text.replace (Text.upper abbreviation) (Text.lower abbreviation) name
  | screaming => Text.upper name
  | title => capitalizeWords name abbreviation
  | lower => Text.lower name

/-- A name with the abbreviations that occur in it written as the convention has them, which are tried
in the given order. -/
def adjust (c : Convention) (order : List Text) (name : Text) : Text :=
  order.foldl (fun s abbreviation =>
    if Text.holds (Text.upper name) abbreviation then c.adjustOne s abbreviation else s) name

/-! ## Conversion -/

def capitalWord (abbreviations : List Text) (word : Text) : Text :=
  if abbreviations.contains (Text.upper word) then Text.upper word else Text.capitalize word

def firstCamelWord (abbreviations : List Text) (word : Text) : Text :=
  if abbreviations.contains (Text.upper word) then Text.upper word else Text.lower word

def assemble (c : Convention) (abbreviations : List Text) (ws : List Text) : Text :=
  match c with
  | pascal => List.flatten (ws.map (capitalWord abbreviations))
  | camel => match ws with
    | [] => ""
    | w :: rest =>
      firstCamelWord abbreviations w ++ List.flatten (rest.map (capitalWord abbreviations))
  | snake => Text.join "_" (ws.map Text.lower)
  | kebab => Text.join "-" (ws.map Text.lower)
  | screaming => Text.upper (Text.join "_" (ws.map Text.lower))
  | title => Text.join " " (ws.map (capitalWord abbreviations))
  | lower => Text.join " " (ws.map Text.lower)

def convert (c : Convention) (abbreviations : List Text) (name : Text) : Text :=
  c.assemble abbreviations (words name)

end Convention

end ViewLint
