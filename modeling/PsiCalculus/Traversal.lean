import PsiCalculus.Context

/-! # Traversals

A traversal shows every node of a tree to a visitor, in a context that holds the subtree at the node
and the table as it is by then. The visitor keeps the node, replaces the context, or fails; failures
are located at the node. The table a visit leaves is the table of the next one.

* `Traversal.postorder` visits the operands of a node, left to right, and then the node once.
* `Traversal.preorder` visits a node until the visitor keeps it, at most `limit` replacements, and
  then the operands of what it became.

A node is built anew, which checks the number of its operands, only if some visit below it replaced
something. Visitors may act in any monad `m`; a traversal that only computes takes `m` to be `Id`.
-/

namespace PsiCalculus

/-- What is done at each node: `none` keeps it. -/
abbrev Visitor (m : Type → Type) := Context → ExceptT Error m (Option Context)

/-- A visitor that only computes. -/
def Visitor.ofExcept (f : Context → Except Error (Option Context)) : Visitor Id :=
  fun c => ExceptT.mk (pure (f c))

namespace Traversal

/-- The result of a traversal that only computes. -/
def run {α : Type} (x : ExceptT Error Id α) : Except Error α :=
  Id.run x.run

variable {m : Type → Type} [Monad m]

/-- A context that a traversal arrived at, and whether some visit replaced something on the way. -/
structure Outcome where
  context : Context
  changed : Bool

/-- The operands that a traversal arrived at, with the table after the last one. -/
structure Operands where
  trees : List Expr
  table : SymbolTable
  changed : Bool

/-- A visit whose failure is located at `path`. -/
def visitAt (visit : Visitor m) (path : Path) (c : Context) : ExceptT Error m (Option Context) :=
  (visit c).adapt (Error.located path)

/-- The node over its traversed operands. -/
def reassemble (node : Expr) (operands : Operands) : Except Error Context :=
  if operands.changed then do
    return ⟨← node.rebuild operands.trees, operands.table⟩
  else
    return ⟨node, operands.table⟩

mutual

/-- Visits the operands of a node, then the node, which stands at `path`. -/
def postorderAt (visit : Visitor m) (path : Path) (table : SymbolTable) :
    Expr → ExceptT Error m Outcome
  | .node op shape payload children => do
    let operands ← postorderAll visit path 0 table children
    let c ← liftExcept (reassemble (.node op shape payload children) operands)
    match ← visitAt visit path c with
    | some replacement => return ⟨replacement, true⟩
    | none => return ⟨c, operands.changed⟩
termination_by structural e => e

/-- Visits the trees of a list, the first of which is operand number `index` of the node at
`path`. -/
def postorderAll (visit : Visitor m) (path : Path) (index : Nat) (table : SymbolTable) :
    List Expr → ExceptT Error m Operands
  | [] => return ⟨[], table, false⟩
  | child :: rest => do
    let first ← postorderAt visit (path ++ [index]) table child
    let others ← postorderAll visit path (index + 1) first.context.table rest
    return ⟨first.context.tree :: others.trees, others.table, first.changed || others.changed⟩
termination_by structural children => children

end

/-- Visits the node at `path` until the visitor keeps it, replacing it at most `budget` times. The
flag says whether it was replaced. -/
def settle (visit : Visitor m) (path : Path) (limit : Nat) : Nat → Context → ExceptT Error m Outcome
  | 0, c => do
    match ← visitAt visit path c with
    | none => return ⟨c, false⟩
    | some _ => throw (.nonconvergence path limit)
  | budget + 1, c => do
    match ← visitAt visit path c with
    | none => return ⟨c, false⟩
    | some replacement =>
      let settled ← settle visit path limit budget replacement
      return { settled with changed := true }

/-- Runs `recurse` on the trees of a list, the first of which is operand number `index` of the node
at `path`. -/
def descend (recurse : Path → Context → ExceptT Error m Outcome) (path : Path) (index : Nat)
    (table : SymbolTable) : List Expr → ExceptT Error m Operands
  | [] => return ⟨[], table, false⟩
  | child :: rest => do
    let first ← recurse (path ++ [index]) ⟨child, table⟩
    let others ← descend recurse path (index + 1) first.context.table rest
    return ⟨first.context.tree :: others.trees, others.table, first.changed || others.changed⟩

/-- Settles the node at `path`, then its operands, down to `depth` levels. -/
def preorderAt (visit : Visitor m) (limit : Nat) : Nat → Path → Context → ExceptT Error m Outcome
  | 0, _, _ => throw .tooDeep
  | depth + 1, path, c => do
    let settled ← settle visit path limit limit c
    let node := settled.context.tree
    let operands ← descend (preorderAt visit limit depth) path 0 settled.context.table node.children
    let c ← liftExcept (reassemble node operands)
    return ⟨c, settled.changed || operands.changed⟩

/-- Visits every node of the tree once, operands first. -/
def postorder (visit : Visitor m) (c : Context) : ExceptT Error m Context :=
  Outcome.context <$> postorderAt visit [] c.table c.tree

/-- Rewrites every node of the tree, parents first, each at most `limit` times. A visitor that
deepens the tree has to keep it within twice the number of its nodes. -/
def preorder (visit : Visitor m) (limit : Nat) (c : Context) : ExceptT Error m Context :=
  Outcome.context <$> preorderAt visit limit (2 * c.tree.size) [] c

end Traversal

end PsiCalculus
