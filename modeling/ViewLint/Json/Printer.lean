import ViewLint.Json.Basic
import ViewLint.Text.Quote
import ViewLint.Text.Search

/-!
# Writing JSON

A style says how a value is indented, and whether everything outside ASCII is escaped.
-/

namespace ViewLint.Json

structure Style where
  ascii : Bool
  /-- The indentation of each level, on lines of their own; nothing for a single line. -/
  indent : Option Nat
  afterComma : Text := " "
  afterColon : Text := " "

def Style.document : Style := ⟨false, some 2, " ", " "⟩

def Style.asciiDocument : Style := ⟨true, some 2, " ", " "⟩

def Style.line : Style := ⟨true, none, " ", " "⟩

def Style.compact : Style := ⟨true, none, "", ""⟩

def unitEscape (n : Nat) : Text := "\\u" ++ hexDigits 4 n

def escapeChar (ascii : Bool) (c : CodePoint) : Text :=
  let n := c.toNat
  if c == '"' then "\\\""
  else if c == '\\' then "\\\\"
  else if c == '\n' then "\\n"
  else if c == '\r' then "\\r"
  else if c == '\t' then "\\t"
  else if n == 12 then "\\f"
  else if n == 8 then "\\b"
  else if n < 32 then unitEscape n
  else if !ascii || n < 127 then [c]
  else if n < 0x10000 then unitEscape n
  else unitEscape (0xD800 + (n - 0x10000) / 0x400) ++ unitEscape (0xDC00 + (n - 0x10000) % 0x400)

def stringText (ascii : Bool) (s : Text) : Text := "\"" ++ s.flatMap (escapeChar ascii) ++ "\""

def floatText : Binary64 → Text
  | .nan => "NaN"
  | .infinite s => if s then "-Infinity" else "Infinity"
  | x => x.text

def keyText : Key → Text
  | .name s => s
  | .null => "null"
  | .bool b => if b then "true" else "false"
  | .int n => intText n
  | .float x => floatText x

def Style.lineStart (style : Style) (depth : Nat) : Text :=
  match style.indent with
  | none => ""
  | some width => "\n" ++ Text.repeated (width * depth) " "

def Style.separator (style : Style) (depth : Nat) : Text :=
  match style.indent with
  | none => "," ++ style.afterComma
  | some _ => "," ++ style.lineStart depth

mutual

def renderAt (style : Style) (depth : Nat) : Json → Text
  | .null => "null"
  | .bool b => if b then "true" else "false"
  | .int n => intText n
  | .float x => floatText x
  | .str s => stringText style.ascii s
  | .arr [] => "[]"
  | .arr (x :: xs) =>
    "[" ++ style.lineStart (depth + 1) ++ renderAt style (depth + 1) x
      ++ renderItems style (depth + 1) xs ++ style.lineStart depth ++ "]"
  | .obj _ [] => "\x7b\x7d"
  | .obj _ (f :: fs) =>
    "\x7b" ++ style.lineStart (depth + 1) ++ renderField style (depth + 1) f
      ++ renderFields style (depth + 1) fs ++ style.lineStart depth ++ "\x7d"

def renderField (style : Style) (depth : Nat) : Key × Json → Text
  | (key, value) => stringText style.ascii (keyText key) ++ ":" ++ style.afterColon ++ renderAt style depth value

def renderItems (style : Style) (depth : Nat) : List Json → Text
  | [] => ""
  | x :: xs => style.separator depth ++ renderAt style depth x ++ renderItems style depth xs

def renderFields (style : Style) (depth : Nat) : List (Key × Json) → Text
  | [] => ""
  | f :: fs => style.separator depth ++ renderField style depth f ++ renderFields style depth fs

end

def render (style : Style) (v : Json) : Text := renderAt style 0 v

mutual

def sortKeys : Json → Json
  | .arr items => .arr (sortItems items)
  | .obj kind fields =>
    .obj kind ((sortFields fields).mergeSort fun a b => Text.le (keyText a.1) (keyText b.1))
  | v => v

def sortItems : List Json → List Json
  | [] => []
  | x :: xs => sortKeys x :: sortItems xs

def sortFields : List (Key × Json) → List (Key × Json)
  | [] => []
  | (k, v) :: rest => (k, sortKeys v) :: sortFields rest

end

end ViewLint.Json
