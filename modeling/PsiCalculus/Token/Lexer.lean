import PsiCalculus.Error
import PsiCalculus.Text.Decimal

/-! # From characters to tokens

`Token.scan` reads a source. At every place the longest token that starts there is taken: a run of
identifier characters is a keyword only if all of it is one, and an operator followed by `red` is a
reduction. Blanks and comments, from `#` to the end of the line, separate tokens.

* `Lexeme.next` says what starts at a place and how many characters after the first it covers.
* `Token.scanFrom` repeats it; spans are byte offsets.
-/

namespace PsiCalculus

namespace Token

/-- Blanks between tokens. -/
def isSpace (c : Char) : Bool :=
  c = ' ' || c = '\t' || c = '\n' || c = '\r'

/-- Characters an identifier may start with: the plain letters. -/
def isLetter (c : Char) : Bool :=
  ('a' ≤ c && c ≤ 'z') || ('A' ≤ c && c ≤ 'Z')

/-- Characters an identifier may go on with. -/
def isIdentChar (c : Char) : Bool :=
  isLetter c || Text.isDigit c || c = '_'

/-- The keyword spelled `word`, or the identifier. -/
def ofWord (word : String) : Token :=
  match word with
  | "psi" => .psi
  | "take" => .take
  | "drop" => .drop
  | "cat" => .cat
  | "tran" => .tran
  | "iota" => .iota
  | "dim" => .dim
  | "tau" => .tau
  | "shp" => .shp
  | "rav" => .rav
  | _ => .ident word

/-- The largest integer a source may hold. -/
def maxInteger : Nat := 9223372036854775807

end Token

/-- What starts at a place of a source. -/
inductive Lexeme where
  /-- Blanks or a comment. -/
  | gap
  | token (token : Token)
  /-- Nothing that the language has. -/
  | stray
  deriving DecidableEq, Repr

namespace Lexeme

open Token

/-- An arithmetic operator, or a reduction if `red` follows. -/
def operator (op : ArithOp) (rest : List Char) : Lexeme × Nat :=
  if rest.take 3 = ['r', 'e', 'd'] then (.token (.reduction op), 3) else (.token (.arith op), 0)

/-- What starts with `c` before `rest`, and how many characters of `rest` belong to it. -/
def next (c : Char) (rest : List Char) : Lexeme × Nat :=
  if isSpace c then (.gap, (rest.takeWhile isSpace).length)
  else if c = '#' then (.gap, (rest.takeWhile (· ≠ '\n')).length)
  else if Text.isDigit c then
    let digits := rest.takeWhile Text.isDigit
    let n := Text.decimal (c :: digits)
    (if n ≤ maxInteger then .token (.integer n) else .stray, digits.length)
  else if isLetter c then
    let word := rest.takeWhile isIdentChar
    (.token (ofWord (String.ofList (c :: word))), word.length)
  else match c with
    | '+' => operator .plus rest
    | '-' => operator .minus rest
    | '*' => operator .times rest
    | '/' => operator .divide rest
    | '.' => (.token .dot, 0)
    | '^' => (.token .caret, 0)
    | '<' => (.token .leftAngle, 0)
    | '>' => (.token .rightAngle, 0)
    | '(' => (.token .leftParen, 0)
    | ')' => (.token .rightParen, 0)
    | ':' => if rest.head? = some '=' then (.token .assign, 1) else (.stray, 0)
    | _ => (.stray, 0)

end Lexeme

/-- The number of bytes a list of characters takes. -/
def byteLength : List Char → Nat
  | [] => 0
  | c :: cs => c.utf8Size + byteLength cs

namespace Token

/-- The tokens of `source`, whose first character stands at byte `position`. -/
def scanFrom (position : Nat) (source : List Char) : Except Error (List Spanned) :=
  match source with
  | [] => .ok []
  | c :: rest =>
    let (lexeme, extra) := Lexeme.next c rest
    let covered := c :: rest.take extra
    let stop := position + byteLength covered
    match lexeme with
    | .gap => scanFrom stop (rest.drop extra)
    | .token token => do
      let tokens ← scanFrom stop (rest.drop extra)
      return ⟨token, position, stop⟩ :: tokens
    | .stray => .error (.noToken position (String.ofList covered))
termination_by source.length
decreasing_by all_goals simp only [List.length_drop, List.length_cons]; omega

/-- The tokens of a source, or the first place where no token starts. -/
def scan (source : String) : Except Error (List Spanned) :=
  scanFrom 0 source.toList

end Token

end PsiCalculus
