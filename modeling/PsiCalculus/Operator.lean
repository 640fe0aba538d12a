/-! # Operators

The operators an expression is built from: arrays, the structural operators, pointwise arithmetic,
comparison and logic, products and reductions, and the forms that guards and loop nests are made of.
Every operator has a label, the text it is listed under, and an arity, the number of operands it
admits.
-/

namespace PsiCalculus

/-- Arithmetic, usable pointwise, in products and in reductions. -/
inductive ArithOp where
  | plus
  | minus
  | times
  | divide
  deriving DecidableEq, Repr

/-- Comparisons of two scalars. -/
inductive CompareOp where
  | equal
  | notEqual
  | less
  | lessEqual
  | greater
  | greaterEqual
  deriving DecidableEq, Repr

/-- Connectives of conditions. -/
inductive LogicOp where
  | and
  | or
  deriving DecidableEq, Repr

/-- The spelling of an arithmetic operator. -/
def ArithOp.symbol : ArithOp → String
  | plus => "+"
  | minus => "-"
  | times => "*"
  | divide => "/"

/-- The spelling of a comparison. -/
def CompareOp.symbol : CompareOp → String
  | equal => "=="
  | notEqual => "!="
  | less => "<"
  | lessEqual => "<="
  | greater => ">"
  | greaterEqual => ">="

/-- The spelling of a connective. -/
def LogicOp.symbol : LogicOp → String
  | and => "and"
  | or => "or"

/-- What a node of an expression does. Compound operators carry their parts: the outer sum is
`outer plus`, the matrix product `inner plus times`. -/
inductive Operator where
  /-- A named array. -/
  | array
  /-- Reverses the axes. -/
  | transpose
  /-- The vector of axis lengths. -/
  | shape
  /-- The number of axes. -/
  | dim
  | iota
  | tau
  | rav
  /-- Selects by an index vector. -/
  | psi
  /-- Permutes the axes as a vector says. -/
  | permute
  | take
  | drop
  | cat
  | assign
  | arith (op : ArithOp)
  | compare (op : CompareOp)
  | logic (op : LogicOp)
  | not
  | outer (op : ArithOp)
  /-- Combines elements by `combine` and folds the shared axis by `fold`. -/
  | inner (fold combine : ArithOp)
  /-- Folds the leading axis. -/
  | reduce (op : ArithOp)
  /-- A guard and the expression it protects. -/
  | condition
  /-- Runs its second operand if the first holds. -/
  | branch
  /-- Stops with a message. -/
  | raise
  | function
  | block
  | loop
  /-- Creates the result array. -/
  | allocate
  deriving DecidableEq, Repr

/-- How many operands an operator admits. -/
inductive Arity where
  | fixed (count : Nat)
  | variadic
  deriving DecidableEq, Repr

/-- Whether `count` operands are admitted. -/
def Arity.accepts : Arity → Nat → Bool
  | fixed n, count => n == count
  | variadic, _ => true

namespace Operator

/-- Every operator has a fixed number of operands, but blocks and loops hold any number of
statements. -/
def arity : Operator → Arity
  | array | raise | allocate => .fixed 0
  | transpose | shape | dim | iota | tau | rav | not | reduce _ | function => .fixed 1
  | psi | permute | take | drop | cat | assign | arith _ | compare _ | logic _ | outer _
  | inner _ _ | condition | branch => .fixed 2
  | block | loop => .variadic

/-- Operators that act pointwise on two operands; a scalar operand extends to the shape of the
other. -/
def isElementwise : Operator → Bool
  | arith _ | compare _ | logic _ => true
  | _ => false

/-- The arithmetic done once per element of the result, if any. -/
def arithmetic? : Operator → Option ArithOp
  | arith op | outer op | reduce op => some op
  | inner _ op => some op
  | _ => none

/-- The text an operator is listed under. -/
def label : Operator → String
  | array => "array"
  | transpose => "tran"
  | shape => "shp"
  | dim => "dim"
  | iota => "iota"
  | tau => "tau"
  | rav => "rav"
  | psi => "psi"
  | permute => "tranv"
  | take => "take"
  | drop => "drop"
  | cat => "cat"
  | assign => ":="
  | arith op => op.symbol
  | compare op => op.symbol
  | logic op => op.symbol
  | not => "not"
  | outer op => "." ++ op.symbol
  | inner fold combine => fold.symbol ++ "." ++ combine.symbol
  | reduce op => op.symbol ++ "red"
  | condition => "condition"
  | branch => "if"
  | raise => "error"
  | function => "function"
  | block => "block"
  | loop => "loop"
  | allocate => "initialize"

end Operator

end PsiCalculus
