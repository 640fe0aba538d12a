import PsiCalculus.Context

/-! # Arguments and free indices

Which names of a table a function takes as its arguments (`SymbolTable.arguments`), and which
indices of a reduced expression are not bound by a reduction, so that a loop has to run over them
(`Context.freeIndices`).
-/

namespace PsiCalculus

/-! ## Arguments -/

/-- Puts a name into an increasing list, unless it is there. -/
def insertName (name : String) : List String → List String
  | [] => [name]
  | first :: rest =>
    if name < first then name :: first :: rest
    else if name = first then first :: rest
    else first :: insertName name rest

/-- The names of a list, each once, in increasing order. -/
def sortedNames (names : List String) : List String :=
  names.foldr insertName []

namespace SymbolTable

/-- Whether the name is an index of the table. -/
def isIndex (t : SymbolTable) (name : String) : Bool :=
  (t.get? name).any fun symbol => symbol.kind = .index

/-- Whether something about a user's array is left to run time. -/
def isOpen (elements : Option Shape) : Bool :=
  elements.elim true Shape.isSymbolic

/-- The names an entry of the table makes arguments: an array of the user that is not known in full
is one itself, and a generated array makes one of every name its value mentions, indices apart. -/
def claims (t : SymbolTable) : String × Symbol → Except Error (List String)
  | (name, symbol) =>
    if symbol.kind = .index then .ok []
    else if isGenerated name then
      if isOpen symbol.shape then .error (.lowering (.implicitUnknown name))
      else .ok ((Shape.names (symbol.value.getD [])).filter fun n => !t.isIndex n)
    else if isOpen symbol.shape || isOpen symbol.value then .ok [name]
    else .ok []

/-- The names that an array of the user is sized or filled by. -/
def sizing : String × Symbol → List String
  | (name, symbol) =>
    if symbol.kind = .index || isGenerated name then [] else symbol.dependencies

/-- The names a function over the table takes, in increasing order. Names that only size or fill an
argument are read off it and are no arguments themselves. -/
def arguments (t : SymbolTable) : Except Error (List String) := do
  let claimed ← t.entries.mapM t.claims
  let sizing := t.entries.flatMap sizing
  return (sortedNames claimed.flatten).filter fun name => name ∉ sizing

end SymbolTable

/-! ## Free indices -/

namespace Expr

mutual

/-- The names mentioned by the values of the arrays of a tree. -/
def valueNames (table : SymbolTable) : Expr → Except Error (List String)
  | .node op _ payload children => do
    let own ← match op, payload with
      | .array, .name name => do pure (Shape.names ((← table.get name).value.getD []))
      | _, _ => pure []
    let rest ← valueNamesAll table children
    return own ++ rest
termination_by structural e => e

/-- The names mentioned by the values of the arrays of several trees. -/
def valueNamesAll (table : SymbolTable) : List Expr → Except Error (List String)
  | [] => return []
  | c :: cs => do
    let first ← valueNames table c
    let rest ← valueNamesAll table cs
    return first ++ rest
termination_by structural cs => cs

end

mutual

/-- The indices that the reductions of a tree bind. -/
def boundIndices : Expr → List String
  | .node (.reduce _) _ (.name index) children => index :: boundIndicesAll children
  | .node _ _ _ children => boundIndicesAll children
termination_by structural e => e

/-- The indices that the reductions of several trees bind. -/
def boundIndicesAll : List Expr → List String
  | [] => []
  | c :: cs => boundIndices c ++ boundIndicesAll cs
termination_by structural cs => cs

end

end Expr

/-- The indices that the arrays of a tree mention and no reduction of it binds, in the order of the
table: outermost loop first. -/
def Context.freeIndices (c : Context) : Except Error (List String) := do
  let used ← c.tree.valueNames c.table
  let bound := c.tree.boundIndices
  return (c.table.entries.filter fun (name, symbol) =>
    symbol.kind = .index && used.contains name && !bound.contains name).map Prod.fst

end PsiCalculus
