import PsiCalculus.LoopNest.Names
import PsiCalculus.Shape.Inference

/-! # Loop nests

`Context.lower` turns a reduced expression into a function: its arguments, checks that they have the
ranks and shapes declared, names for the lengths that are symbolic, allocation of the result, and
one assignment inside a loop per free index. A reduced assignment stores into its own target, which
is then the result.
-/

namespace PsiCalculus

namespace LoopNest

/-- The messages of the three guards. -/
def guardMessage : GuardKind → String
  | .dimension => "arguments have invalid dimension"
  | .shape => "arguments have invalid shape"
  | .incompatibleShape => "arguments have incompatible shape"

/-- The comparison of two scalars for equality. -/
def equal (left right : Expr) : Expr :=
  .binary (.compare .equal) (some []) left right

/-- Stops unless the condition holds. -/
def guard (kind : GuardKind) (condition : Expr) : Expr :=
  .binary .branch none (.unary .not (some []) condition)
    (.node .raise none (.raise kind (guardMessage kind)) [])

/-- Stops unless all conditions hold; nothing if there are none. -/
def guardAll (kind : GuardKind) (conditions : List Expr) : List Expr :=
  ((Condition.conjunction conditions).map (guard kind)).toList

/-! ## Checks on the arguments -/

/-- What is known of the arguments so far: the checks of their ranks and lengths, and the lengths
that were given names. -/
structure Checks where
  ranks : List Expr := []
  lengths : List Expr := []
  assignments : List Expr := []
  assigned : List String := []

/-- The length of an axis of an argument: an index into its shape. -/
def axisLength (argument : Expr) (rank axis : Nat) : Grow Expr := do
  let vector ← Grow.vector [.int axis]
  return .binary .psi (some []) vector (.unary .shape (some [.int rank]) argument)

/-- Checks the length of one axis. The first axis of a symbolic length names it. -/
def checkAxis (argument : Expr) (rank axis : Nat) (checks : Checks) : Element → Grow Checks
  | .symbolic scalar => do
    let length ← axisLength argument rank axis
    let name := scalar.name?.getD ""
    if name ∈ checks.assigned then
      return { checks with lengths := checks.lengths ++ [equal scalar length] }
    else
      return { checks with
        assignments := checks.assignments ++ [.binary .assign (some []) scalar length]
        assigned := name :: checks.assigned }
  | .int n => do
    let length ← axisLength argument rank axis
    let expected ← Grow.scalar (.int n)
    return { checks with lengths := checks.lengths ++ [equal expected length] }

/-- Checks the lengths of the axes from `axis` on. -/
def checkAxes (argument : Expr) (rank : Nat) : Nat → Checks → Shape → Grow Checks
  | _, checks, [] => return checks
  | axis, checks, length :: rest => do
    let checks ← checkAxis argument rank axis checks length
    checkAxes argument rank (axis + 1) checks rest

/-- Checks rank and lengths of an argument, if its shape is declared. -/
def checkArgument (checks : Checks) (name : String) : Grow Checks := do
  match (← Grow.symbol name).shape with
  | none => return checks
  | some shape =>
    let argument := Expr.array name (some shape)
    let rank ← Grow.scalar (.int shape.length)
    let checks := { checks with
      ranks := checks.ranks ++ [equal (.unary .dim (some []) argument) rank] }
    checkAxes argument shape.length 0 checks shape

/-- Checks the arguments in order. -/
def checkArguments : Checks → List String → Grow Checks
  | checks, [] => return checks
  | checks, name :: rest => do
    let checks ← checkArgument checks name
    checkArguments checks rest

/-- The statements before the result: the ranks are checked first, then lengths are given names,
then the lengths and at last the domain of the expression are checked. Without guards only the
names remain. -/
def preamble (guards : Bool) (checks : Checks) (domain : Option Expr) : List Expr :=
  if guards then
    guardAll .dimension checks.ranks ++ checks.assignments ++ guardAll .shape checks.lengths
      ++ (domain.map (guard .incompatibleShape)).toList
  else checks.assignments

/-! ## The loops -/

/-- The array that a reduced assignment stores into. -/
def assignmentTarget (assign : Expr) : Except Error String :=
  match assign.children with
  | [] => .error (.lowering .noTarget)
  | target :: _ =>
    let array := match target.op, target.children with
      | .psi, _ :: operand :: _ => operand
      | _, _ => target
    match array.arrayName? with
    | some name => .ok name
    | none => .error (.lowering (.targetNotArray array.op))

/-- Allocation of a fresh result, and the assignment of the expression to its element at the
indices. -/
def store (shape : Shape) (indices : List String) (expression : Expr) :
    Grow (String × List Expr × Expr) := do
  let result ← Grow.fresh (.array (some shape) none)
  let vector ← Grow.vector (indices.map .named)
  let target := Expr.binary .psi (some shape) vector (.array result (some shape))
  let body := Expr.binary .assign (some shape) target expression
  return (result, [.node .allocate (some shape) (.name result) []], body)

/-- The body inside a loop over each index, the first one outermost. -/
def loops (shape : Shape) (body : Expr) : List String → Grow Expr
  | [] => return body
  | index :: rest => do
    let inner ← loops shape body rest
    match (← Grow.symbol index).value with
    | some [start, stop, step] =>
      return .node .loop (some shape) (.loop index start stop step) [inner]
    | _ => throw (.lowering (.noRange index))

/-- The guard and the consequent of a condition; any other tree is its own consequent. -/
def splitDomain (tree : Expr) : Except Error (Option Expr × Expr) := do
  if tree.op = .condition then
    return (some (← tree.select [0]), ← tree.select [1])
  else
    return (none, tree)

/-- The function that computes a reduced expression. -/
def function (guards : Bool) (arguments : List String) (domain : Option Expr) (expression : Expr) :
    Grow Expr := do
  let checks ← checkArguments {} arguments
  match expression.shape with
  | none => throw (.lowering .unshaped)
  | some shape =>
    let indices ← Context.freeIndices ⟨expression, ← get⟩
    let (result, allocation, body) ←
      if expression.op = .assign then do pure (← assignmentTarget expression, [], expression)
      else store shape indices expression
    let nest ← loops shape body indices
    let block := Expr.node .block none .none (preamble guards checks domain ++ allocation ++ [nest])
    return .node .function (some shape) (.function arguments result) [block]

end LoopNest

/-- The function that computes a reduced context, with or without guards on its arguments. -/
def Context.lower (guards : Bool) (c : Context) : Except Error Context := do
  let arguments ← c.table.arguments
  let (domain, expression) ← LoopNest.splitDomain c.tree
  c.grow (LoopNest.function guards arguments domain expression)

end PsiCalculus
