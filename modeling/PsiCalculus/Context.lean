import PsiCalculus.Expr.Path
import PsiCalculus.SymbolTable

/-! # Contexts

A tree together with the table that gives meaning to its names. Every operation answers a new
context. `Context.render` lists a tree, one node per line, with shapes and known values.
-/

namespace PsiCalculus

/-- A tree and the table of its names. -/
structure Context where
  tree : Expr
  table : SymbolTable
  deriving DecidableEq

namespace Context

/-- The same table with another tree. -/
def withTree (c : Context) (tree : Expr) : Context :=
  { c with tree }

/-- The symbol of a name. -/
def symbol (c : Context) (name : String) : Except Error Symbol :=
  c.table.get name

/-- The symbol of the array leaf at the root. -/
def arraySymbol (c : Context) : Except Error Symbol :=
  match c.tree.arrayName? with
  | some name => c.symbol name
  | none => .error (.pattern [] (.notArray c.tree.op))

/-- The subtree at a path, with the whole table. -/
def select (c : Context) (path : Path) : Except Error Context :=
  c.withTree <$> c.tree.select path

/-- The context with the node at a path replaced. -/
def replace (c : Context) (path : Path) (replacement : Expr) : Except Error Context :=
  c.withTree <$> c.tree.replace path replacement

/-- The context with the shape of the node at a path set. -/
def replaceShape (c : Context) (path : Path) (shape : Option Shape) : Except Error Context := do
  let node ← c.tree.select path
  c.replace path (node.withShape shape)

/-- The context with the payload of the node at a path set. -/
def replacePayload (c : Context) (path : Path) (payload : Payload) : Except Error Context := do
  let node ← c.tree.select path
  c.replace path (node.withPayload payload)

/-- The context with a symbol entered into its table. -/
def insert (c : Context) (name : String) (symbol : Symbol) : Except Error Context := do
  return { c with table := ← c.table.insert name symbol }

/-- Runs a computation that grows the table and answers a tree. -/
def grow (c : Context) (build : Grow Expr) : Except Error Context := do
  let (tree, table) ← build.run c.table
  return ⟨tree, table⟩

/-! ## Listing -/

/-- The text of a node without its operands and its shape. -/
def headline (table : SymbolTable) (op : Operator) (payload : Payload) : String :=
  match op, payload with
  | .array, .name name =>
    name ++ match (table.get? name).bind Symbol.value with
      | some value => " = " ++ Shape.text value
      | none => ""
  | op, .name name => op.label ++ " [" ++ name ++ "]"
  | op, .raise _ message => op.label ++ " \"" ++ message ++ "\""
  | op, .function arguments result =>
    op.label ++ "(" ++ ", ".intercalate arguments ++ ") -> " ++ result
  | op, .loop index start stop step =>
    op.label ++ " " ++ index ++ " in (" ++ start.text ++ ", " ++ stop.text ++ ", " ++ step.text
      ++ ")"
  | op, .none => op.label

/-- A text written several times. -/
def repeated (n : Nat) (s : String) : String :=
  String.join (List.replicate n s)

mutual

/-- The lines of a tree, the root indented by `depth` steps. -/
def lines (table : SymbolTable) (depth : Nat) : Expr → List String
  | .node op shape payload children =>
    (repeated depth "  " ++ headline table op payload ++ "  ρ=" ++ Shape.textOf shape)
      :: linesAll table (depth + 1) children
termination_by structural e => e

/-- The lines of several trees. -/
def linesAll (table : SymbolTable) (depth : Nat) : List Expr → List String
  | [] => []
  | c :: cs => lines table depth c ++ linesAll table depth cs
termination_by structural cs => cs

end

/-- The listing of a context's tree. -/
def render (c : Context) : String :=
  String.join ((lines c.table 0 c.tree).map (· ++ "\n"))

end Context

end PsiCalculus
