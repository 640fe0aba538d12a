import PsiCalculus.Operator

/-! # Tokens

The words of the expression language, each with its spelling, and tokens at their place in a source.
Places are byte offsets.
-/

namespace PsiCalculus

/-- A word of the expression language. -/
inductive Token where
  | integer (value : Nat)
  | ident (name : String)
  | psi
  | take
  | drop
  | cat
  | tran
  | iota
  | dim
  | tau
  | shp
  | rav
  /-- An arithmetic operator written before `red`. -/
  | reduction (op : ArithOp)
  | arith (op : ArithOp)
  | dot
  | assign
  | caret
  | leftAngle
  | rightAngle
  | leftParen
  | rightParen
  deriving DecidableEq, Repr

/-- The spelling of a token. -/
def Token.text : Token → String
  | integer n => toString n
  | ident name => name
  | psi => "psi"
  | take => "take"
  | drop => "drop"
  | cat => "cat"
  | tran => "tran"
  | iota => "iota"
  | dim => "dim"
  | tau => "tau"
  | shp => "shp"
  | rav => "rav"
  | reduction op => op.symbol ++ "red"
  | arith op => op.symbol
  | dot => "."
  | assign => ":="
  | caret => "^"
  | leftAngle => "<"
  | rightAngle => ">"
  | leftParen => "("
  | rightParen => ")"

/-- A token and the bytes of the source it covers, from `start` up to but not including `stop`. -/
structure Spanned where
  token : Token
  start : Nat
  stop : Nat
  deriving DecidableEq, Repr

end PsiCalculus
