import PsiCalculus.Context
import PsiCalculus.Json

/-! # Contexts as JSON

The form in which trees and tables are handed to other programs. A constructor without arguments is
its name; one with arguments is an object whose only key is the name.
-/

namespace PsiCalculus

/-- A constructor with arguments. -/
def Json.tagged (name : String) (value : Json) : Json :=
  .obj [(name, value)]

/-- An arithmetic operator. -/
def ArithOp.toJson : ArithOp → Json
  | plus => .str "Plus"
  | minus => .str "Minus"
  | times => .str "Times"
  | divide => .str "Divide"

/-- A comparison. -/
def CompareOp.toJson : CompareOp → Json
  | equal => .str "Equal"
  | notEqual => .str "NotEqual"
  | less => .str "LessThan"
  | lessEqual => .str "LessThanEqual"
  | greater => .str "GreaterThan"
  | greaterEqual => .str "GreaterThanEqual"

/-- A connective. -/
def LogicOp.toJson : LogicOp → Json
  | and => .str "And"
  | or => .str "Or"

/-- An operator. -/
def Operator.toJson : Operator → Json
  | array => .str "Array"
  | transpose => .str "Transpose"
  | shape => .str "Shape"
  | dim => .str "Dim"
  | iota => .str "Iota"
  | tau => .str "Tau"
  | rav => .str "Rav"
  | psi => .str "Psi"
  | permute => .str "TransposeV"
  | take => .str "Take"
  | drop => .str "Drop"
  | cat => .str "Cat"
  | assign => .str "Assign"
  | arith op => .tagged "Arith" op.toJson
  | compare op => .tagged "Compare" op.toJson
  | logic op => .tagged "Logic" op.toJson
  | not => .str "Not"
  | outer op => .tagged "Outer" op.toJson
  | inner fold combine => .tagged "Inner" (.array [fold.toJson, combine.toJson])
  | reduce op => .tagged "Reduce" op.toJson
  | condition => .str "Condition"
  | branch => .str "If"
  | raise => .str "Error"
  | function => .str "Function"
  | block => .str "Block"
  | loop => .str "Loop"
  | allocate => .str "Initialize"

/-- The promise a guard checks. -/
def GuardKind.toJson : GuardKind → Json
  | dimension => .str "Dimension"
  | shape => .str "Shape"
  | incompatibleShape => .str "IncompatibleShape"

mutual

/-- An element. -/
def Element.toJson : Element → Json
  | .int n => .tagged "Int" (.int n)
  | .symbolic node => .tagged "Symbolic" node.toJson
termination_by structural e => e

/-- A list of elements. -/
def Element.allToJson : List Element → List Json
  | [] => []
  | e :: es => e.toJson :: Element.allToJson es
termination_by structural es => es

/-- A shape that may be unknown. -/
def Element.shapeToJson : Option (List Element) → Json
  | none => .null
  | some es => .array (Element.allToJson es)
termination_by structural shape => shape

/-- A payload. -/
def Payload.toJson : Payload → Json
  | .none => .str "None"
  | .name name => .tagged "Name" (.str name)
  | .raise kind message =>
    .tagged "Raise" (.obj [("kind", kind.toJson), ("message", .str message)])
  | .function arguments result =>
    .tagged "Function" (.obj [("arguments", .strings arguments), ("result", .str result)])
  | .loop index start stop step =>
    .tagged "Loop" (.obj [("index", .str index), ("start", start.toJson), ("stop", stop.toJson),
      ("step", step.toJson)])
termination_by structural payload => payload

/-- An expression. -/
def Expr.toJson : Expr → Json
  | .node op shape payload children =>
    .obj [("symbol", op.toJson), ("shape", Element.shapeToJson shape), ("attrib", payload.toJson),
      ("children", .array (Expr.allToJson children))]
termination_by structural e => e

/-- A list of expressions. -/
def Expr.allToJson : List Expr → List Json
  | [] => []
  | c :: cs => c.toJson :: Expr.allToJson cs
termination_by structural cs => cs

end

/-- What a name stands for. -/
def SymbolKind.toJson : SymbolKind → Json
  | array => .str "Array"
  | index => .str "Index"

/-- What is known about a name. -/
def Symbol.toJson (s : Symbol) : Json :=
  .obj [("kind", s.kind.toJson), ("shape", Element.shapeToJson s.shape),
    ("ty", Json.orNull .str s.elementType), ("value", Element.shapeToJson s.value)]

/-- A table: its symbols by name, the names in order, and the counter. -/
def SymbolTable.toJson (t : SymbolTable) : Json :=
  .obj [("symbols", .obj (t.entries.map fun (name, symbol) => (name, symbol.toJson))),
    ("order", .strings t.names), ("counter", .int t.counter)]

/-- A tree with its table. -/
def Context.toJson (c : Context) : Json :=
  .obj [("ast", c.tree.toJson), ("symbol_table", c.table.toJson)]

end PsiCalculus
