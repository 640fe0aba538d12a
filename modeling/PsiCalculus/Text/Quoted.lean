import PsiCalculus.Text.Printable

/-! # Quoted texts

A text between double quotes, with the quote, the backslash and the common controls escaped by a
letter, and every other character without a picture of its own escaped by its code point.
-/

namespace PsiCalculus.Text

/-- The digits of a code point, base sixteen, lower case, no leading zeros. -/
def hexDigits (n : Nat) : String :=
  String.ofList (Nat.toDigits 16 n)

/-- How one character stands between the quotes. -/
def escape (c : Char) : String :=
  if c = '"' then "\\\""
  else if c = '\\' then "\\\\"
  else if c = '\n' then "\\n"
  else if c = '\r' then "\\r"
  else if c = '\t' then "\\t"
  else if c.toNat = 0 then "\\0"
  else if isPrintable c then c.toString
  else "\\u\x7b" ++ hexDigits c.toNat ++ "\x7d"

/-- The text between double quotes. -/
def quote (s : String) : String :=
  "\"" ++ String.join (s.toList.map escape) ++ "\""

end PsiCalculus.Text
