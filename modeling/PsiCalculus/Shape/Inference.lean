import PsiCalculus.Shape.Constraint
import PsiCalculus.Shape.Permutation
import PsiCalculus.Traversal

/-! # Shape inference

`Context.inferShapes` gives every node its shape, operands first. Comparisons that have to wait for
run time are gathered in one condition at the root: a node whose operands carry conditions takes
over their guards (`Condition.hoist`), adds its own, and is wrapped again (`Condition.wrap`). A
reduction of a scalar is the scalar.
-/

namespace PsiCalculus

namespace Condition

/-- All of the conditions, joined from the left; `none` if there are none. -/
def conjunction : List Expr → Option Expr
  | [] => none
  | first :: rest => some (rest.foldl (.binary (.logic .and) (some [])) first)

/-- The tree guarded by the conditions, if there are any. -/
def wrap (tree : Expr) (conditions : List Expr) : Expr :=
  match conjunction conditions with
  | none => tree
  | some guard => .binary .condition tree.shape guard tree

/-- The guard and the consequent of an operand that is a condition. -/
def split? (e : Expr) : Option (Expr × Expr) :=
  match e.op, e.children with
  | .condition, [guard, consequent] => some (guard, consequent)
  | _, _ => none

/-- The node over the consequents of those of its operands that are conditions, and their guards.
A condition keeps its own guard and takes over the one of its consequent. -/
def hoist (node : Expr) : Expr × List Expr :=
  match node.op, node.children with
  | .condition, [guard, inner] =>
    match split? inner with
    | some (innerGuard, consequent) => (node.withChildren [guard, consequent], [innerGuard])
    | none => (node, [])
  | .condition, _ => (node, [])
  | _, children =>
    (node.withChildren (children.map fun c => (split? c).elim c Prod.snd),
      children.filterMap fun c => (split? c).map Prod.fst)

end Condition

namespace Infer

/-- Operand number `index` of a node. -/
def operand (node : Expr) (index : Nat) : Infer Expr :=
  match node.children[index]? with
  | some child => return child
  | none => fault (.missingOperand node.op index)

/-- The shape of operand number `index` of a node. -/
def operandShape (node : Expr) (index : Nat) : Infer Shape := do
  match (← operand node index).shape with
  | some shape => return shape
  | none => fault (.unshapedOperand node.op index)

/-- The value of operand number `index` of a node, if it is an array whose value is known. -/
def operandValue (node : Expr) (index : Nat) : Infer (Option Shape) := do
  match (← operand node index).arrayName? with
  | some name => return (← (← get).table.get name).value
  | none => return none

/-! ## The shape of each operator -/

/-- An array has the shape the table declares. -/
def arrayShape (node : Expr) : Infer Shape := do
  let symbol ← Context.arraySymbol ⟨node, (← get).table⟩
  match symbol.shape with
  | some shape => return shape
  | none => fault (.undeclared (node.name?.getD "?"))

/-- Axis `j` of the right operand becomes the axis that entry `j` of the left one names. -/
def permutedShape (node : Expr) : Infer Shape := do
  let shape ← operandShape node 1
  match (← operandValue node 0).bind Shape.ints? with
  | none => fault .permutationUnknown
  | some targets =>
    if targets.length ≠ shape.length then
      fault (.permutationLength targets.length shape.length)
    else match Shape.place? targets shape with
      | some placed => return placed
      | none => fault (.notPermutation shape.length targets)

/-- Operands whose shapes have to agree. -/
def equalShape (node : Expr) : Infer Shape := do
  let left ← operandShape node 0
  let right ← operandShape node 1
  matchShapes node.op left right

/-- Operands whose shapes have to agree unless one of them is a scalar. -/
def extendedShape (node : Expr) : Infer Shape := do
  let left ← operandShape node 0
  let right ← operandShape node 1
  if left.isEmpty then return right
  else if right.isEmpty then return left
  else matchShapes node.op left right

/-- The length of an index vector. A negative length is read as an unsigned 64-bit word, which
exceeds every rank. -/
def indexLength : Shape → Infer Nat
  | [.int n] => return if 0 ≤ n then n.toNat else (n + (Text.maxWord + 1)).toNat
  | [.symbolic _] => fault .indexLengthSymbolic
  | _ => fault .indexNotVector

/-- Indexing takes away as many leading axes as the index is long. -/
def selectedShape (node : Expr) : Infer Shape := do
  let left ← operandShape node 0
  let right ← operandShape node 1
  let length ← indexLength left
  if right.length < length then
    fault (.indexTooLong length right.length)
  else
    if let some value ← operandValue node 0 then
      checkBounds 0 value right
    return right.drop length

/-- An outer product has the axes of both operands. -/
def outerShape (node : Expr) : Infer Shape := do
  let left ← operandShape node 0
  let right ← operandShape node 1
  return left ++ right

/-- The last axis of the left and the first axis of the right operand of an inner product have to
agree. -/
def matchInner : Element → Element → Infer Unit
  | .int l, .int r => if l = r then return () else fault (.innerMismatch l r)
  | l, r => compare .equal l r

/-- An inner product has the axes of both operands but the two that it folds. -/
def innerShape (node : Expr) : Infer Shape := do
  let left ← operandShape node 0
  let right ← operandShape node 1
  match left.getLast?, right with
  | some last, first :: rest => do
    matchInner last first
    return left.dropLast ++ rest
  | _, _ => fault .innerScalar

/-- The shape of a node whose operands have theirs. -/
def nodeShape (node : Expr) : Infer Shape :=
  match node.op with
  | .array => arrayShape node
  | .transpose => List.reverse <$> operandShape node 0
  | .permute => permutedShape node
  | .assign => equalShape node
  | .shape => do return [.int (← operandShape node 0).length]
  | .dim => return []
  | .psi => selectedShape node
  | .arith _ | .compare _ | .logic _ => extendedShape node
  | .not => operandShape node 0
  | .outer _ => outerShape node
  | .inner _ _ => innerShape node
  | .reduce _ => List.tail <$> operandShape node 0
  | op => throw (.pattern [] (.noShapeRule op))

/-- The scalar that a reduction reduces, if it does. -/
def reducedScalar? (node : Expr) : Option Expr :=
  match node.op, node.children with
  | .reduce _, operand :: _ => if operand.shape = some [] then some operand else none
  | _, _ => none

/-- A condition has the shape of its consequent; the lifted guards join its own. -/
def shapeCondition (node : Expr) (lifted : List Expr) : Except Error Expr :=
  match node.children with
  | [guard, consequent] => .ok (Condition.wrap consequent (guard :: lifted))
  | _ => .error (.shape [] .conditionOperands)

/-- Gives a node its shape, given those of its operands. -/
def shapeNode (c : Context) : Except Error Context := do
  let (node, lifted) := Condition.hoist c.tree
  if let some scalar := reducedScalar? node then
    return c.withTree (Condition.wrap scalar lifted)
  else if node.op = .condition then
    return c.withTree (← shapeCondition node lifted)
  else
    let (shape, pending) ← (nodeShape node).run { table := c.table }
    if let some existing := node.shape then
      if existing ≠ shape then
        throw (.shape [] (.contradiction shape existing))
    let tree := Condition.wrap (node.withShape (some shape)) (lifted ++ pending.conditions)
    return ⟨tree, pending.table⟩

end Infer

namespace Context

/-- Gives every node its shape. -/
def inferShapes (c : Context) : Except Error Context :=
  Traversal.run (Traversal.postorder (.ofExcept fun c => some <$> Infer.shapeNode c) c)

/-- The rank of the root. -/
def dimension (c : Context) : Except Error Nat := do
  let shape ← if c.tree.op = .array then Symbol.shape <$> c.arraySymbol else pure c.tree.shape
  match shape with
  | some shape => return shape.length
  | none => throw (.shape [] (.unknownRank c.tree.op))

/-- Whether the root is an array of rank zero. -/
def isScalar (c : Context) : Except Error Bool := do
  if c.tree.op = .array then return (← c.dimension) == 0 else return false

/-- Whether the root is an array of rank one. -/
def isVector (c : Context) : Except Error Bool := do
  if c.tree.op = .array then return (← c.dimension) == 1 else return false

end Context

end PsiCalculus
