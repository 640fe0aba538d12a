/-! # Decimal numbers

Runs of decimal digits, and the unsigned 64-bit numbers that texts denote.
-/

namespace PsiCalculus.Text

/-- Decimal digits. -/
def isDigit (c : Char) : Bool :=
  '0' ≤ c && c ≤ '9'

/-- The number a list of decimal digits denotes. -/
def decimal (digits : List Char) : Nat :=
  digits.foldl (fun n d => 10 * n + (d.toNat - '0'.toNat)) 0

/-- The largest number an unsigned 64-bit word holds. -/
def maxWord : Nat := 18446744073709551615

/-- The number that decimal digits, perhaps after a plus sign, denote, if a word holds it. -/
def word? (cs : List Char) : Option Nat :=
  let digits := match cs with
    | '+' :: rest => rest
    | _ => cs
  if !digits.isEmpty && digits.all isDigit && decimal digits ≤ maxWord then some (decimal digits)
  else none

end PsiCalculus.Text
