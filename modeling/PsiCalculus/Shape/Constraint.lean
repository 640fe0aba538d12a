import PsiCalculus.Context

/-! # Constraints between shapes

A check that two lengths agree, or that an index is below a length, is decided at once when both are
integers. When one is symbolic the check is deferred: it becomes a comparison of two scalars, to be
made at run time, and an integer that takes part in it enters the table as a scalar of its own.
-/

namespace PsiCalculus

/-- The table so far and the comparisons deferred so far, in order. -/
structure Pending where
  table : SymbolTable
  conditions : List Expr := []

/-- Computations that may grow the table and defer comparisons. -/
abbrev Infer := StateT Pending (Except Error)

namespace Infer

/-- Fails with a fault of the node that is visited. -/
def fault {α : Type} (f : ShapeFault) : Infer α :=
  throw (.shape [] f)

/-- The scalar that stands for an element in a comparison. -/
def scalar : Element → Infer Expr
  | .symbolic node => return node
  | .int n => do
    let s ← get
    let (leaf, table) ← (Grow.scalar (.int n)).run s.table
    set { s with table }
    return leaf

/-- Defers a comparison. -/
def compare (op : CompareOp) (left right : Element) : Infer Unit := do
  let left ← scalar left
  let right ← scalar right
  modify fun s =>
    { s with conditions := s.conditions ++ [.binary (.compare op) (some []) left right] }

/-- The length that two operands of `op` share at an axis: an integer is preferred to a symbolic
length, and the left one to the right. -/
def matchAxis (op : Operator) (axis : Nat) : Element → Element → Infer Element
  | .int l, .int r => if l = r then return .int l else fault (.axisMismatch op axis l r)
  | .symbolic l, .symbolic r => do
    if l ≠ r then compare .equal (.symbolic l) (.symbolic r)
    return .symbolic l
  | .symbolic l, .int r => do
    compare .equal (.symbolic l) (.int r)
    return .int r
  | .int l, .symbolic r => do
    compare .equal (.int l) (.symbolic r)
    return .int l

/-- The lengths that two operands of `op` share from an axis on. -/
def matchAxes (op : Operator) (axis : Nat) : Shape → Shape → Infer Shape
  | l :: ls, r :: rs => do
    let first ← matchAxis op axis l r
    let rest ← matchAxes op (axis + 1) ls rs
    return first :: rest
  | _, _ => return []

/-- The shape that two operands of `op` share. -/
def matchShapes (op : Operator) (left right : Shape) : Infer Shape :=
  if left.length = right.length then matchAxes op 0 left right
  else fault (.rankMismatch op left.length right.length)

/-- Checks each index against the length of its axis, from `axis` on. -/
def checkBounds (axis : Nat) : Shape → Shape → Infer Unit
  | .int i :: is, .int b :: bs =>
    if i < b then checkBounds (axis + 1) is bs else fault (.indexOutOfBounds i b axis)
  | i :: is, b :: bs => do
    compare .less i b
    checkBounds (axis + 1) is bs
  | _, _ => return ()

end Infer

end PsiCalculus
