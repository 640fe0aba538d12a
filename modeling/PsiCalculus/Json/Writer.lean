import PsiCalculus.Json
import PsiCalculus.Text.Quoted

/-! # Writing JSON

Two layouts of the same text: `Json.compact` on one line without blanks, `Json.pretty` with one item
per line, two blanks per level. Strings escape the quote, the backslash and the controls; every
other character stands for itself.
-/

namespace PsiCalculus.Json

/-- How a character stands inside a string literal. -/
def escape (c : Char) : String :=
  if c = '"' then "\\\""
  else if c = '\\' then "\\\\"
  else if c.toNat = 8 then "\\b"
  else if c.toNat = 12 then "\\f"
  else if c = '\n' then "\\n"
  else if c = '\r' then "\\r"
  else if c = '\t' then "\\t"
  else if c.toNat < 0x10 then "\\u000" ++ Text.hexDigits c.toNat
  else if c.toNat < 0x20 then "\\u00" ++ Text.hexDigits c.toNat
  else c.toString

/-- A string literal. -/
def literal (s : String) : String :=
  "\"" ++ String.join (s.toList.map escape) ++ "\""

/-- A literal for a string that may stand for no text. -/
def literalOf (text : Option String) : String :=
  literal (text.getD "")

mutual

/-- The text of a value on one line. -/
def compact : Json → String
  | .null => "null"
  | .bool true => "true"
  | .bool false => "false"
  | .number spelling => spelling
  | .string text => literalOf text
  | .array items => "[" ++ ",".intercalate (compactItems items) ++ "]"
  | .object fields => "\x7b" ++ ",".intercalate (compactFields fields) ++ "\x7d"

/-- The texts of the items of an array. -/
def compactItems : List Json → List String
  | [] => []
  | v :: vs => compact v :: compactItems vs

/-- The texts of the fields of an object. -/
def compactFields : List (Option String × Json) → List String
  | [] => []
  | (key, v) :: fs => (literalOf key ++ ":" ++ compact v) :: compactFields fs

end

/-- Items between brackets, one per line, `level` levels deep. -/
def layout (opening closing : String) (level : Nat) : List String → String
  | [] => opening ++ closing
  | items =>
    let indent := "\n" ++ String.join (List.replicate (level + 1) "  ")
    opening ++ indent ++ ("," ++ indent).intercalate items ++ "\n"
      ++ String.join (List.replicate level "  ") ++ closing

mutual

/-- The text of a value `level` levels deep, one item per line. -/
def prettyAt (level : Nat) : Json → String
  | .array items => layout "[" "]" level (prettyItems (level + 1) items)
  | .object fields => layout "\x7b" "\x7d" level (prettyFields (level + 1) fields)
  | .null => "null"
  | .bool true => "true"
  | .bool false => "false"
  | .number spelling => spelling
  | .string text => literalOf text

/-- The texts of the items of an array. -/
def prettyItems (level : Nat) : List Json → List String
  | [] => []
  | v :: vs => prettyAt level v :: prettyItems level vs

/-- The texts of the fields of an object. -/
def prettyFields (level : Nat) : List (Option String × Json) → List String
  | [] => []
  | (key, v) :: fs => (literalOf key ++ ": " ++ prettyAt level v) :: prettyFields level fs

end

/-- The text of a value, one item per line. -/
def pretty (v : Json) : String :=
  prettyAt 0 v

end PsiCalculus.Json
