import PsiCalculus.Context

/-! # Python text

Reduced expressions as Python expressions (`Python.expression`) and lowered functions as Python
modules (`Python.program`) that index NumPy arrays element by element. Scalars whose value is known
may be written as literals; a chain of scalars, each the value of the one before, ends after at most
as many steps as the table has symbols, unless it runs in a circle.
-/

namespace PsiCalculus

/-- What the text of a tree depends on. -/
structure Python where
  table : SymbolTable
  /-- Whether scalars of known value are written as literals. -/
  literals : Bool

namespace Python

/-- Fails with an emission fault. -/
def fault {α : Type} (f : EmitFault) : Except Error α :=
  .error (.emit f)

/-! ## Elements -/

/-- The only element of a scalar whose value is known. -/
def scalarValue? (p : Python) (name : String) : Option Element :=
  if p.literals then
    match p.table.get? name with
    | some ⟨_, some [], _, some [value]⟩ => some value
    | _ => none
  else none

/-- The text of an element, scalars of known value followed for at most `steps` steps. -/
def elementWithin (p : Python) : Nat → Element → String
  | _, .int n => toString n
  | steps, .symbolic node =>
    match node.name? with
    | none => "?"
    | some name =>
      match steps, p.scalarValue? name with
      | steps + 1, some value => elementWithin p steps value
      | _, _ => name

/-- The text of an element. -/
def element (p : Python) (e : Element) : String :=
  p.elementWithin (p.table.size + 1) e

/-- The text of the array `name`: its literal, if it is a scalar of known value. -/
def arrayText (p : Python) (name : String) : String :=
  p.element (.named name)

/-- A tuple; a single item keeps its comma. -/
def tuple : List String → String
  | [single] => "(" ++ single ++ ",)"
  | items => "(" ++ ", ".intercalate items ++ ")"

/-- The range an index runs over. -/
def range (p : Python) (start stop step : Element) : String :=
  "range(" ++ p.element start ++ ", " ++ p.element stop ++ ", " ++ p.element step ++ ")"

/-- The function that does an arithmetic operator. -/
def operatorName : ArithOp → String
  | .plus => "add"
  | .minus => "sub"
  | .times => "mul"
  | .divide => "truediv"

/-! ## Expressions -/

/-- The texts of the elements of an index vector. -/
def indexTexts (p : Python) (vector : Expr) : Except Error (List String) := do
  match vector.arrayName? with
  | none => fault (.indexNotArray vector.op)
  | some name =>
    match (← p.table.get name).value with
    | some value => return value.map p.element
    | none => fault (.indexUnknown name)

/-- The range of the index that a reduction binds. -/
def boundRange (p : Python) (index : String) : Except Error String := do
  match (← p.table.get index).value with
  | some [start, stop, step] => return p.range start stop step
  | _ => fault (.noRange index)

/-- The operand `index` of `op` among `operands`. -/
def operand {α : Type} (op : Operator) (operands : List α) (index : Nat) : Except Error α :=
  match operands[index]? with
  | some a => .ok a
  | none => fault (.missingOperand op index)

/-- An indexed operand. Indexing by nothing is the operand itself, and the shape of an array is
indexed by a single axis. -/
def selection (op : Operator) (text : String) : List String → String
  | [] => text
  | [axis] =>
    match op with
    | .shape => text ++ "[" ++ axis ++ "]"
    | .array => text ++ "[" ++ tuple [axis] ++ "]"
    | _ => "(" ++ text ++ ")[" ++ tuple [axis] ++ "]"
  | indices =>
    match op with
    | .array => text ++ "[" ++ tuple indices ++ "]"
    | _ => "(" ++ text ++ ")[" ++ tuple indices ++ "]"

/-- Two operands around an operator. -/
def binaryText (op : Operator) (symbol : String) (texts : List (Except Error String)) :
    Except Error String := do
  let left ← ← operand op texts 0
  let right ← ← operand op texts 1
  return "(" ++ left ++ " " ++ symbol ++ " " ++ right ++ ")"

/-- The text of a node, given those of its operands. -/
def combine (p : Python) (op : Operator) (payload : Payload) (children : List Expr)
    (texts : List (Except Error String)) : Except Error String := do
  match op with
  | .array =>
    match payload with
    | .name name => return p.arrayText name
    | _ => fault .unnamedArray
  | .psi =>
    let indices ← p.indexTexts (← operand op children 0)
    let array ← operand op children 1
    let text ← ← operand op texts 1
    return selection array.op text indices
  | .arith o => binaryText op o.symbol texts
  | .compare o => binaryText op o.symbol texts
  | .logic o => binaryText op o.symbol texts
  | .not => return "(not " ++ (← ← operand op texts 0) ++ ")"
  | .dim => return "len(" ++ (← ← operand op texts 0) ++ ".shape)"
  | .shape => return (← ← operand op texts 0) ++ ".shape"
  | .reduce o =>
    match payload with
    | .name index =>
      let range ← p.boundRange index
      let body ← ← operand op texts 0
      return "functools.reduce(operator." ++ operatorName o ++ ", (" ++ body ++ " for " ++ index
        ++ " in " ++ range ++ "))"
    | _ => fault .unboundReduction
  | op => fault (.noExpression op)

mutual

/-- The text of an expression. -/
def expression (p : Python) : Expr → Except Error String
  | .node op _ payload children => p.combine op payload children (p.expressions children)
termination_by structural e => e

/-- The texts of several expressions. -/
def expressions (p : Python) : List Expr → List (Except Error String)
  | [] => []
  | c :: cs => p.expression c :: p.expressions cs
termination_by structural cs => cs

end

/-! ## Statements -/

/-- A line, indented by `depth` steps. -/
def line (depth : Nat) (text : String) : String :=
  Context.repeated depth "    " ++ text

/-- The condition of a branch; a negation at its root needs no parentheses. -/
def test (p : Python) (condition : Expr) : Except Error String := do
  match condition.op with
  | .not => return "not " ++ (← p.expression (← operand .not condition.children 0))
  | _ => p.expression condition

/-- The lines of a node at `depth`, given those of its operands. -/
def arrange (p : Python) (depth : Nat) (node : Expr) (bodies : List (Except Error (List String))) :
    Except Error (List String) := do
  match node.op, node.payload with
  | .block, _ => return (← bodies.mapM id).flatten
  | .branch, _ =>
    let condition ← p.test (← operand node.op node.children 0)
    let body ← ← operand node.op bodies 1
    return line depth ("if " ++ condition ++ ":") :: body
  | .raise, .raise _ message =>
    return [line depth ("raise Exception(" ++ Text.quote message ++ ")")]
  | .assign, _ =>
    let target ← p.expression (← operand node.op node.children 0)
    let value ← p.expression (← operand node.op node.children 1)
    return [line depth (target ++ " = " ++ value)]
  | .allocate, .name name =>
    match node.shape with
    | some shape =>
      return [line depth (name ++ " = numpy.zeros(" ++ tuple (shape.map p.element) ++ ")")]
    | none => fault (.unshapedAllocation name)
  | .loop, .loop index start stop step =>
    let head := line depth ("for " ++ index ++ " in " ++ p.range start stop step ++ ":")
    return head :: (← bodies.mapM id).flatten
  | op, _ => fault (.noStatement op)

/-- The depth of the statements inside a node: those of a block stand beside it. -/
def innerDepth (op : Operator) (depth : Nat) : Nat :=
  if op = .block then depth else depth + 1

mutual

/-- The lines of a statement. -/
def statement (p : Python) (depth : Nat) : Expr → Except Error (List String)
  | .node op shape payload children =>
    p.arrange depth (.node op shape payload children)
      (p.statements (innerDepth op depth) children)
termination_by structural e => e

/-- The lines of several statements. -/
def statements (p : Python) (depth : Nat) : List Expr → List (Except Error (List String))
  | [] => []
  | c :: cs => p.statement depth c :: p.statements depth cs
termination_by structural cs => cs

end

/-- The lines every module starts with. -/
def imports : List String :=
  ["import functools", "import operator", "", "import numpy", "", ""]

/-- The module of the function `name` with the body that a lowered context holds. -/
def program (name : String) (literals : Bool) (c : Context) : Except Error String := do
  match c.tree.op, c.tree.payload with
  | .function, .function arguments result =>
    let p : Python := ⟨c.table, literals⟩
    let body ← (p.statements 1 c.tree.children).mapM id
    let lines := imports ++ ["def " ++ name ++ "(" ++ ", ".intercalate arguments ++ "):"]
      ++ body.flatten ++ [line 1 ("return " ++ result)]
    return "\n".intercalate lines ++ "\n"
  | op, _ => fault (.notFunction op)

end Python

/-- The Python expression of a context's tree, scalars of known value as literals. -/
def Context.pythonExpression (c : Context) : Except Error String :=
  Python.expression ⟨c.table, true⟩ c.tree

end PsiCalculus
