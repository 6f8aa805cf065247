import ViewLint.Json.Basic
import ViewLint.Text.Quote

/-!
# Values in messages

A string stands for itself in a message; inside an array or an object it is quoted. An ordered object
is shown as the list of its fields.
-/

namespace ViewLint

namespace Json

def quotedKey : Key → Text
  | .name s => Text.quote s
  | .null => "None"
  | .bool b => if b then "True" else "False"
  | .int n => intText n
  | .float x => x.text

mutual

def quoted : Json → Text
  | .null => "None"
  | .bool b => if b then "True" else "False"
  | .int n => intText n
  | .float x => x.text
  | .str s => Text.quote s
  | .arr items => "[" ++ quotedItems items ++ "]"
  | .obj .plain fields => "\x7b" ++ quotedFields fields ++ "\x7d"
  | .obj .ordered [] => "OrderedDict()"
  | .obj .ordered (f :: fields) => "OrderedDict([" ++ quotedPairs (f :: fields) ++ "])"

def quotedItems : List Json → Text
  | [] => ""
  | [x] => quoted x
  | x :: xs => quoted x ++ ", " ++ quotedItems xs

def quotedFields : List (Key × Json) → Text
  | [] => ""
  | [(k, v)] => quotedKey k ++ ": " ++ quoted v
  | (k, v) :: rest => quotedKey k ++ ": " ++ quoted v ++ ", " ++ quotedFields rest

def quotedPairs : List (Key × Json) → Text
  | [] => ""
  | [(k, v)] => "(" ++ quotedKey k ++ ", " ++ quoted v ++ ")"
  | (k, v) :: rest => "(" ++ quotedKey k ++ ", " ++ quoted v ++ "), " ++ quotedPairs rest

end

def display : Json → Text
  | .str s => s
  | v => quoted v

def kindName : Json → Text
  | .null => "NoneType"
  | .bool _ => "bool"
  | .int _ => "int"
  | .float _ => "float"
  | .str _ => "str"
  | .arr _ => "list"
  | .obj .plain _ => "dict"
  | .obj .ordered _ => "collections.OrderedDict"

def kindText (v : Json) : Text := "<class '" ++ v.kindName ++ "'>"

end Json

def Key.display (key : Key) : Text := key.toJson.display

end ViewLint
