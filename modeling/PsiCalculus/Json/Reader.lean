import PsiCalculus.Json
import PsiCalculus.Text.Decimal

/-! # Reading JSON

`Json.parse?` accepts exactly the texts that are one value, with blanks around its tokens and
nothing after it. Nesting is bounded by twice the length of the text, which no text reaches.
-/

namespace PsiCalculus.Json

/-- Blanks between tokens. -/
def isBlank (c : Char) : Bool :=
  c = ' ' || c = '\n' || c = '\t' || c = '\r'

/-- The text from the next token on. -/
def skipBlanks (cs : List Char) : List Char :=
  cs.dropWhile isBlank

/-! ## Strings -/

/-- The value of a hexadecimal digit. -/
def hexValue? (c : Char) : Option Nat :=
  if Text.isDigit c then some (c.toNat - '0'.toNat)
  else if 'a' ≤ c && c ≤ 'f' then some (c.toNat - 'a'.toNat + 10)
  else if 'A' ≤ c && c ≤ 'F' then some (c.toNat - 'A'.toNat + 10)
  else none

/-- The character that a letter after a backslash stands for. -/
def escaped? : Char → Option Char
  | '"' => some '"'
  | '\\' => some '\\'
  | '/' => some '/'
  | 'b' => some (Char.ofNat 8)
  | 'f' => some (Char.ofNat 12)
  | 'n' => some '\n'
  | 'r' => some '\r'
  | 't' => some '\t'
  | _ => none

/-- The code units of a string literal after its opening quote, and the text after its closing
quote. A plain character is the unit of its code point; an escape with four digits is the unit that
they denote. -/
def units? : List Char → Option (List Nat × List Char)
  | [] => none
  | '"' :: rest => some ([], rest)
  | '\\' :: 'u' :: a :: b :: c :: d :: rest => do
    let high := 16 * (← hexValue? a) + (← hexValue? b)
    let low := 16 * (← hexValue? c) + (← hexValue? d)
    let (units, rest) ← units? rest
    return ((256 * high + low) :: units, rest)
  | '\\' :: letter :: rest => do
    let c ← escaped? letter
    let (units, rest) ← units? rest
    return (c.toNat :: units, rest)
  | c :: rest =>
    if c = '\\' || c.toNat < 0x20 then none
    else do
      let (units, rest) ← units? rest
      return (c.toNat :: units, rest)

/-- Whether the unit is the first half of a pair. -/
def isHighSurrogate (n : Nat) : Bool := 0xd800 ≤ n && n < 0xdc00

/-- Whether the unit is the second half of a pair. -/
def isLowSurrogate (n : Nat) : Bool := 0xdc00 ≤ n && n < 0xe000

/-- The characters of a list of units, if every surrogate has its partner. -/
def decode? : List Nat → Option (List Char)
  | [] => some []
  | high :: low :: rest =>
    if isHighSurrogate high && isLowSurrogate low then do
      let c := Char.ofNat (0x10000 + 0x400 * (high - 0xd800) + (low - 0xdc00))
      return c :: (← decode? rest)
    else if isHighSurrogate high || isLowSurrogate high then none
    else return Char.ofNat high :: (← decode? (low :: rest))
  | [unit] =>
    if isHighSurrogate unit || isLowSurrogate unit then none else some [Char.ofNat unit]

/-- The text of a string literal after its opening quote, and the text that follows. -/
def string? (cs : List Char) : Option (Option String × List Char) := do
  let (units, rest) ← units? cs
  return ((decode? units).map String.ofList, rest)

/-! ## Numbers -/

/-- A run of at least one digit. -/
def digits? (cs : List Char) : Option (List Char × List Char) :=
  match cs.takeWhile Text.isDigit with
  | [] => none
  | run => some (run, cs.dropWhile Text.isDigit)

/-- Digits without a leading zero, unless zero is all there is. -/
def integral? : List Char → Option (List Char × List Char)
  | '0' :: rest => if rest.head?.any Text.isDigit then none else some (['0'], rest)
  | cs => digits? cs

/-- A point and digits, or nothing. -/
def fraction? : List Char → Option (List Char × List Char)
  | '.' :: rest => do
    let (run, rest) ← digits? rest
    return ('.' :: run, rest)
  | cs => some ([], cs)

/-- The sign of an exponent, if it has one. -/
def sign : List Char → List Char × List Char
  | '+' :: rest => (['+'], rest)
  | '-' :: rest => (['-'], rest)
  | cs => ([], cs)

/-- An exponent, or nothing. -/
def exponent? : List Char → Option (List Char × List Char)
  | [] => some ([], [])
  | c :: rest =>
    if c = 'e' || c = 'E' then do
      let (mark, rest) := sign rest
      let (run, rest) ← digits? rest
      return (c :: mark ++ run, rest)
    else some ([], c :: rest)

/-- A number, by its spelling. -/
def number? (cs : List Char) : Option (String × List Char) := do
  let (minus, cs) := match cs with
    | '-' :: rest => (['-'], rest)
    | _ => ([], cs)
  let (whole, cs) ← integral? cs
  let (part, cs) ← fraction? cs
  let (power, cs) ← exponent? cs
  return (String.ofList (minus ++ whole ++ part ++ power), cs)

/-! ## Values -/

mutual

/-- The value at the start of a text, and what follows it. -/
def value? : Nat → List Char → Option (Json × List Char)
  | 0, _ => none
  | depth + 1, cs =>
    match skipBlanks cs with
    | '"' :: rest => do
      let (text, rest) ← string? rest
      return (.string text, rest)
    | '[' :: rest =>
      match skipBlanks rest with
      | ']' :: rest => some (.array [], rest)
      | rest => do
        let (items, rest) ← items? depth rest
        return (.array items, rest)
    | '\x7b' :: rest =>
      match skipBlanks rest with
      | '\x7d' :: rest => some (.object [], rest)
      | rest => do
        let (fields, rest) ← fields? depth rest
        return (.object fields, rest)
    | 'n' :: 'u' :: 'l' :: 'l' :: rest => some (.null, rest)
    | 't' :: 'r' :: 'u' :: 'e' :: rest => some (.bool true, rest)
    | 'f' :: 'a' :: 'l' :: 's' :: 'e' :: rest => some (.bool false, rest)
    | cs => do
      let (spelling, rest) ← number? cs
      return (.number spelling, rest)

/-- The items of an array after its bracket, at least one, and what follows the array. -/
def items? : Nat → List Char → Option (List Json × List Char)
  | 0, _ => none
  | depth + 1, cs => do
    let (first, rest) ← value? depth cs
    match skipBlanks rest with
    | ',' :: rest =>
      let (others, rest) ← items? depth rest
      return (first :: others, rest)
    | ']' :: rest => return ([first], rest)
    | _ => none

/-- The fields of an object after its brace, at least one, and what follows the object. -/
def fields? : Nat → List Char → Option (List (Option String × Json) × List Char)
  | 0, _ => none
  | depth + 1, cs =>
    match skipBlanks cs with
    | '"' :: rest => do
      let (key, rest) ← string? rest
      match skipBlanks rest with
      | ':' :: rest =>
        let (value, rest) ← value? depth rest
        match skipBlanks rest with
        | ',' :: rest =>
          let (others, rest) ← fields? depth rest
          return ((key, value) :: others, rest)
        | '\x7d' :: rest => return ([(key, value)], rest)
        | _ => none
      | _ => none
    | _ => none

end

/-- The value of a text that is one JSON value and nothing else. -/
def parse? (text : String) : Option Json := do
  let cs := text.toList
  let (value, rest) ← value? (2 * cs.length + 2) cs
  if (skipBlanks rest).isEmpty then return value else none

end PsiCalculus.Json
