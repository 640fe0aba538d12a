import PsiCalculus.SymbolTable

/-! # Names in expressions

The names that a tree mentions, and trees with their names replaced. Element nodes are part of what
is renamed: the element `n` of a shape names the scalar `n`.
-/

namespace PsiCalculus

/-- The names that a payload mentions, in order. -/
def Payload.names : Payload → List String
  | .none | .raise _ _ => []
  | .name n => [n]
  | .function arguments result => arguments ++ [result]
  | .loop index start stop step => index :: Shape.names [start, stop, step]

mutual

/-- The names that the payloads and shapes of a tree mention, parents first. -/
def Expr.names : Expr → List String
  | .node _ shape payload children =>
    payload.names ++ Shape.names (shape.getD []) ++ Expr.namesAll children
termination_by structural e => e

/-- The names that several trees mention. -/
def Expr.namesAll : List Expr → List String
  | [] => []
  | c :: cs => c.names ++ Expr.namesAll cs
termination_by structural cs => cs

end

mutual

/-- An element with its names replaced. -/
def Element.mapNames (f : String → String) : Element → Element
  | .int n => .int n
  | .symbolic node => .symbolic (node.mapNames f)
termination_by structural e => e

/-- A list of elements with their names replaced. -/
def Element.mapNamesAll (f : String → String) : List Element → List Element
  | [] => []
  | e :: es => e.mapNames f :: Element.mapNamesAll f es
termination_by structural es => es

/-- A shape, if it is known, with its names replaced. -/
def Element.mapNamesShape (f : String → String) : Option (List Element) → Option (List Element)
  | none => none
  | some es => some (Element.mapNamesAll f es)
termination_by structural shape => shape

/-- A payload with its names replaced. -/
def Payload.mapNames (f : String → String) : Payload → Payload
  | .none => .none
  | .name name => .name (f name)
  | .raise kind message => .raise kind message
  | .function arguments result => .function (arguments.map f) (f result)
  | .loop index start stop step =>
    .loop (f index) (start.mapNames f) (stop.mapNames f) (step.mapNames f)
termination_by structural payload => payload

/-- A tree with its names replaced. -/
def Expr.mapNames (f : String → String) : Expr → Expr
  | .node op shape payload children =>
    .node op (Element.mapNamesShape f shape) (payload.mapNames f) (Expr.mapNamesAll f children)
termination_by structural e => e

/-- Several trees with their names replaced. -/
def Expr.mapNamesAll (f : String → String) : List Expr → List Expr
  | [] => []
  | c :: cs => c.mapNames f :: Expr.mapNamesAll f cs
termination_by structural cs => cs

end

/-- A symbol with the names it depends on replaced. -/
def Symbol.mapNames (f : String → String) (s : Symbol) : Symbol :=
  { s with shape := Element.mapNamesShape f s.shape, value := Element.mapNamesShape f s.value }

end PsiCalculus
