import PsiCalculus.Context

/-! # Costs

`Context.flops` counts the arithmetic an expression does: every arithmetic node contributes the
number of elements of its shape. After reduction that shape is the one of the result, so that
indexing early lowers the count. Counting is in signed 64-bit words, and fails when it leaves them.
-/

namespace PsiCalculus

namespace Cost

/-- A count, if a signed 64-bit word holds it. -/
def checked (n : Int) : Except Error Int :=
  if -9223372036854775808 ≤ n ∧ n ≤ 9223372036854775807 then .ok n else .error .overflow

/-- `acc` times the product of the lengths, multiplied from the left. -/
def productFrom : Int → List Int → Except Error Int
  | acc, [] => .ok acc
  | acc, n :: rest => do
    let acc ← checked (acc * n)
    productFrom acc rest

/-- What the node at `path` does by itself. -/
def ownFlops (path : Path) (op : Operator) (shape : Option Shape) : Except Error (Option Int) :=
  match op.arithmetic? with
  | none => .ok none
  | some _ =>
    match shape.bind Shape.ints? with
    | some lengths => some <$> productFrom 1 lengths
    | none => .error (.shape path (.flopsUnknown op shape))

mutual

/-- `total` and what the tree at `path` does, operands first. -/
def flopsFrom (path : Path) (total : Int) : Expr → Except Error Int
  | .node op shape _ children => do
    let total ← flopsFromAll path 0 total children
    match ← ownFlops path op shape with
    | some own => checked (total + own)
    | none => return total
termination_by structural e => e

/-- `total` and what the trees do that are the operands from number `index` on of the node at
`path`. -/
def flopsFromAll (path : Path) (index : Nat) (total : Int) : List Expr → Except Error Int
  | [] => return total
  | c :: cs => do
    let total ← flopsFrom (path ++ [index]) total c
    flopsFromAll path (index + 1) total cs
termination_by structural cs => cs

end

end Cost

/-- The number of arithmetic operations of a tree. -/
def Context.flops (c : Context) : Except Error Int :=
  Cost.flopsFrom [] 0 c.tree

end PsiCalculus
