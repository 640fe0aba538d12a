import PsiCalculus.NormalForm.Pattern
import PsiCalculus.Shape.Permutation
import PsiCalculus.Context

/-! # Rewrite rules

Each rule pushes an index through one operator: `<i> psi (A op B)` becomes
`(<i> psi A) op (<i> psi B)`, `<i j> psi tran X` becomes `<j i> psi X`, and so on. A rule builds new
index vectors as fresh arrays and new bound indices as fresh symbols. What it builds carries the
shape of the node it replaces.
-/

namespace PsiCalculus

/-- The operators that indexing is pushed through, in the order they are tried. -/
inductive Rule where
  | assign
  | psi
  | transpose
  | permute
  | elementwise
  | outer
  | inner
  | reduce
  deriving DecidableEq, Repr

namespace Rule

/-- Every rule, in the order they are tried. -/
def all : List Rule :=
  [assign, psi, transpose, permute, elementwise, outer, inner, reduce]

/-- The trees a rule is about. -/
def pattern : Rule → Pattern
  | assign => .psiOver (.exact .assign)
  | psi => .psiOver (.exact .psi)
  | transpose => .psiOver (.exact .transpose)
  | permute => .psiOver (.exact .permute)
  | elementwise => .psiOver .elementwise
  | outer => .psiOver .outer
  | inner => .psiOver .inner
  | reduce => .psiOver .reduce

/-! ## Parts of a tree -/

/-- Fails with a fault of the node that is visited. -/
def fault {α : Type} (f : PatternFault) : Grow α :=
  throw (.pattern [] f)

/-- The two operands of a node. -/
def operands (node : Expr) : Grow (Expr × Expr) :=
  match node.children with
  | [left, right] => return (left, right)
  | _ => fault (.notBinary node.op)

/-- The one operand of a node. -/
def operand (node : Expr) : Grow Expr :=
  match node.children with
  | [child] => return child
  | _ => fault (.notUnary node.op)

/-- The shape of an operand. -/
def shapeOf (node : Expr) : Grow Shape :=
  match node.shape with
  | some shape => return shape
  | none => throw (.shape [] (.unshaped node.op))

/-- The elements of an index vector. -/
def elements (node : Expr) : Grow Shape := do
  match node.arrayName? with
  | none => fault (.indexNotArray node.op)
  | some name =>
    match (← Grow.symbol name).value with
    | some value => return value
    | none => fault (.indexUnknown name)

/-- Indexing by a fresh vector of the elements. -/
def indexed (shape : Option Shape) (elements : Shape) (operand : Expr) : Grow Expr :=
  return .binary .psi shape (← Grow.vector elements) operand

/-! ## The rules -/

/-- Indexing an assignment indexes both of its sides. -/
def pushAssign (node : Expr) : Grow Expr := do
  let (vector, operation) ← operands node
  let (left, right) ← operands operation
  return .binary .assign node.shape (.binary .psi node.shape vector left)
    (.binary .psi node.shape vector right)

/-- Two indices in a row are one: the inner one comes first. -/
def pushPsi (node : Expr) : Grow Expr := do
  let (later, selection) ← operands node
  let (earlier, operand) ← operands selection
  let first ← elements earlier
  let second ← elements later
  indexed node.shape (first ++ second) operand

/-- An index of the transposed array is an index of the array, reversed. -/
def pushTranspose (node : Expr) : Grow Expr := do
  let (vector, operation) ← operands node
  let operand ← operand operation
  let index ← elements vector
  if index.length ≠ (← shapeOf operand).length then
    fault .incompleteTranspose
  else
    indexed node.shape index.reverse operand

/-- Entry `j` of the index of the array is the entry of the index that entry `j` of the permutation
names. -/
def pushPermute (node : Expr) : Grow Expr := do
  let (vector, operation) ← operands node
  let (permutation, operand) ← operands operation
  let index ← elements vector
  let places ← elements permutation
  match Shape.arrange? places index with
  | some arranged => indexed node.shape arranged operand
  | none => fault .incompletePermutation

/-- An operand of a pointwise operator under the index `vector`. Scalar arrays stand for themselves;
any other scalar takes the empty index, so that its own operators are pushed through in turn. -/
def pushOperand (shape : Option Shape) (vector operand : Expr) : Grow Expr := do
  if operand.op = .array ∧ operand.shape = some [] then
    return operand
  else if (← shapeOf operand).isEmpty then
    indexed shape [] operand
  else
    return .binary .psi shape vector operand

/-- Indexing a pointwise operator indexes both operands. -/
def pushElementwise (node : Expr) : Grow Expr := do
  let (vector, operation) ← operands node
  let (left, right) ← operands operation
  let left ← pushOperand node.shape vector left
  let right ← pushOperand node.shape vector right
  return .binary operation.op node.shape left right

/-- An index of an outer product is an index of the left operand followed by one of the right. -/
def pushOuter (op : ArithOp) (node : Expr) : Grow Expr := do
  let (vector, product) ← operands node
  let (left, right) ← operands product
  let index ← elements vector
  let rank := (← shapeOf left).length
  if index.length < rank then
    fault .incompleteOuter
  else
    let left ← indexed node.shape (index.take rank) left
    let right ← indexed node.shape (index.drop rank) right
    return .binary (.arith op) node.shape left right

/-- An inner product folds the last axis of the left and the first axis of the right operand, which
a fresh index runs over. -/
def pushInner (fold combine : ArithOp) (node : Expr) : Grow Expr := do
  let (vector, product) ← operands node
  let (left, right) ← operands product
  let index ← elements vector
  let shape ← shapeOf left
  match shape.getLast? with
  | none => fault .scalarInner
  | some bound =>
    let rank := shape.length - 1
    if index.length < rank then
      fault .incompleteInner
    else
      let k ← Grow.index bound
      let left ← indexed node.shape (index.take rank ++ [.named k]) left
      let right ← indexed node.shape (.named k :: index.drop rank) right
      let body := Expr.binary (.arith combine) node.shape left right
      return .node (.reduce fold) node.shape (.name k) [body]

/-- A reduction folds the first axis of its operand, which a fresh index runs over. -/
def pushReduce (node : Expr) : Grow Expr := do
  let (vector, reduction) ← operands node
  let operand ← operand reduction
  let index ← elements vector
  match ← shapeOf operand with
  | [] => fault .scalarReduction
  | bound :: _ =>
    let k ← Grow.index bound
    let body ← indexed node.shape (.named k :: index) operand
    return .node reduction.op node.shape (.name k) [body]

/-- The operator that a node indexes. -/
def indexedOperator? (node : Expr) : Option Operator :=
  node.children[1]?.map Expr.op

/-- What a rule makes of a tree that fits its pattern. -/
def apply (rule : Rule) (node : Expr) : Grow Expr :=
  match rule, indexedOperator? node with
  | assign, _ => pushAssign node
  | psi, _ => pushPsi node
  | transpose, _ => pushTranspose node
  | permute, _ => pushPermute node
  | elementwise, _ => pushElementwise node
  | outer, some (.outer op) => pushOuter op node
  | inner, some (.inner fold combine) => pushInner fold combine node
  | reduce, _ => pushReduce node
  | _, _ => return node

/-- The first rule whose pattern a tree fits. -/
def find? (node : Expr) : Option Rule :=
  all.find? fun rule => rule.pattern.fits node

/-- Rewrites the root by the first rule that is about it. -/
def rewrite (c : Context) : Except Error (Option Context) :=
  match find? c.tree with
  | some rule => some <$> c.grow (rule.apply c.tree)
  | none => .ok none

end Rule

end PsiCalculus
