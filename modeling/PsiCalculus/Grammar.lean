import PsiCalculus.Context
import PsiCalculus.Token.Lexer

/-! # The grammar of expressions

`Context.parse` reads a source into a tree and the table of its names. From loosest to tightest,
binary operators group as `:=`, the structural operators and products, `+` and `-`, `*` and `/`; all
are left associative. A leading operator takes everything on its right. Names enter the table as
they are met: `N ^ <..>` declares a shape, a name inside a vector a scalar, any other name an array
of unknown shape unless it is known already. A vector literal is a fresh array with its value.

The recursion is bounded by the number of tokens: `Grammar.unary` takes a token before it reads a
nested expression, and every round of `Grammar.chainFrom` takes an operator.
-/

namespace PsiCalculus

namespace Grammar

/-- The tokens still to be read and the table so far. -/
structure State where
  tokens : List Spanned
  table : SymbolTable

/-- Reads a part of the tokens. -/
abbrev Reading := StateT State (Except Error)

/-- The first token to be read. -/
def peek : Reading (Option Token) :=
  return (← get).tokens.head?.map Spanned.token

/-- The next tokens, as many as the longest operator has. -/
def lookahead : Reading (List Token) :=
  return ((← get).tokens.take 3).map Spanned.token

/-- Passes over `count` tokens. -/
def skip (count : Nat) : Reading Unit :=
  modify fun s => { s with tokens := s.tokens.drop count }

/-- The complaint that something else was expected at this place. -/
def unexpected {α : Type} (expected : Expected) : Reading α := do
  throw (.parse (.unexpected expected (← get).tokens.head?))

/-- Passes over the token `t`. -/
def expect (t : Token) : Reading Unit := do
  if (← peek) = some t then skip 1 else unexpected (.token t)

/-- Enters what is known of a name into the table. -/
def declare (name : String) (shape : Option Shape) : Reading Unit := do
  let s ← get
  set { s with table := ← s.table.insert name (.array shape none) }

/-! ## Operators -/

/-- The operator that a token before its operand stands for. -/
def leadingOperator? : Token → Option Operator
  | .tran => some .transpose
  | .shp => some .shape
  | .dim => some .dim
  | .iota => some .iota
  | .tau => some .tau
  | .rav => some .rav
  | .reduction op => some (.reduce op)
  | _ => none

/-- Assignment at the head of the tokens, and the number of tokens it takes. -/
def assignment? : List Token → Option (Operator × Nat)
  | .assign :: _ => some (.assign, 1)
  | _ => none

/-- A structural operator or product at the head of the tokens. -/
def structural? : List Token → Option (Operator × Nat)
  | .psi :: _ => some (.psi, 1)
  | .take :: _ => some (.take, 1)
  | .drop :: _ => some (.drop, 1)
  | .cat :: _ => some (.cat, 1)
  | .tran :: _ => some (.permute, 1)
  | .dot :: .arith op :: _ => some (.outer op, 2)
  | .arith fold :: .dot :: .arith combine :: _ => some (.inner fold combine, 3)
  | _ => none

/-- An arithmetic operator among `allowed` at the head of the tokens, unless a dot follows: then it
starts an inner product. -/
def arithmetic? (allowed : List ArithOp) : List Token → Option (Operator × Nat)
  | .arith _ :: .dot :: _ => none
  | .arith op :: _ => if op ∈ allowed then some (.arith op, 1) else none
  | _ => none

/-! ## Expressions -/

/-- Joins `left` by at most `rounds` operators to the operands that follow. -/
def chainFrom (operator? : List Token → Option (Operator × Nat)) (operand : Reading Expr) :
    Nat → Expr → Reading Expr
  | 0, left => return left
  | rounds + 1, left => do
    match operator? (← lookahead) with
    | none => return left
    | some (op, width) =>
      skip width
      let right ← operand
      chainFrom operator? operand rounds (.binary op none left right)

/-- Operands joined by left associative operators. -/
def chain (operator? : List Token → Option (Operator × Nat)) (operand : Reading Expr) :
    Reading Expr := do
  let left ← operand
  chainFrom operator? operand (← get).tokens.length left

/-- An expression, given how its tightest parts are read. -/
def expression (unary : Reading Expr) : Reading Expr :=
  chain assignment? <| chain structural? <| chain (arithmetic? [.plus, .minus]) <|
    chain (arithmetic? [.times, .divide]) unary

/-- The integers and names up to the first other token; a name is declared a scalar. -/
def elementsFrom : List Spanned → SymbolTable → Except Error (Shape × State)
  | ⟨.integer n, _, _⟩ :: rest, table => do
    let (elements, state) ← elementsFrom rest table
    return (.int n :: elements, state)
  | ⟨.ident name, _, _⟩ :: rest, table => do
    let table ← table.insert name (.array (some []) none)
    let (elements, state) ← elementsFrom rest table
    return (.named name :: elements, state)
  | tokens, table => return ([], ⟨tokens, table⟩)

/-- A vector: integers and names between angles. -/
def vector : Reading Shape := do
  expect .leftAngle
  let elements ← fun s => elementsFrom s.tokens s.table
  expect .rightAngle
  return elements

/-- A vector literal, entered into the table under a fresh name. -/
def literal : Reading Expr := do
  let values ← vector
  let s ← get
  let name := s.table.freshName .array
  let symbol := Symbol.array (some [.int values.length]) (some values)
  set { s with table := ← s.table.insert name symbol }
  return .array name none

/-- What may follow a name: its shape, after a caret. -/
def declaration (name : String) : Reading Unit := do
  if (← peek) = some .caret then
    skip 1
    let shape ← vector
    declare name (some shape)
  else if !(← get).table.contains name then
    declare name none

/-- A parenthesized expression, a vector literal, or a name. -/
def primary (nested : Reading Expr) : Reading Expr := do
  match ← peek with
  | some .leftParen =>
    skip 1
    let e ← nested
    expect .rightParen
    return e
  | some .leftAngle => literal
  | some (.ident name) =>
    skip 1
    declaration name
    return .array name none
  | _ => unexpected .expression

/-- A leading operator and the expression it takes, or a primary. The argument bounds how deep
expressions nest. -/
def unary : Nat → Reading Expr
  | 0 => unexpected .expression
  | depth + 1 => do
    match (← peek).bind leadingOperator? with
    | some op =>
      skip 1
      let operand ← expression (unary depth)
      return .unary op none operand
    | none => primary (expression (unary depth))

/-- The whole input as one expression. -/
def whole (depth : Nat) : Reading Expr := do
  let e ← expression (unary depth)
  if (← get).tokens.isEmpty then return e else unexpected .endOfInput

end Grammar

/-- The context of a list of tokens. -/
def Context.ofTokens (tokens : List Spanned) : Except Error Context := do
  let (tree, state) ← (Grammar.whole tokens.length).run ⟨tokens, .empty⟩
  return ⟨tree, state.table⟩

/-- The context of a source. -/
def Context.parse (source : String) : Except Error Context := do
  Context.ofTokens (← Token.scan source)

end PsiCalculus
