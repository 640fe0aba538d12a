import PsiCalculus.NormalForm.Rule
import PsiCalculus.Traversal

/-! # Normal forms

`Context.reduce` brings a shaped tree into a form in which every operator acts on single elements:
the root is indexed by one fresh index per axis (`Context.seed`) and indexing is pushed down by the
rules, parents first, until none applies. A guard at the root stays as it is; its consequent is
indexed.
-/

namespace PsiCalculus

namespace NormalForm

/-- Fresh indices below the lengths of a shape, in order. -/
def freshIndices : Shape → Grow Shape
  | [] => return []
  | bound :: rest => do
    let i ← Grow.index bound
    let others ← freshIndices rest
    return .named i :: others

/-- The tree under a fresh index for every axis. -/
def seedRoot (tree : Expr) : Grow Expr :=
  match tree.shape with
  | none => throw (.shape [] .unshapedRoot)
  | some shape => do
    let indices ← freshIndices shape
    let vector ← Grow.vector indices
    return .binary .psi (some shape) vector tree

/-- Fails because the node has no operand `index`. -/
def offTree (index : Nat) : Grow Expr :=
  throw (.pattern [] (.offTree [index] 0))

/-- Indexes the root, or the consequent if the root is a condition. -/
def seed : Expr → Grow Expr
  | .node .condition _ _ (guard :: consequent :: _) => do
    let indexed ← seed consequent
    return .binary .condition indexed.shape guard indexed
  | .node .condition _ _ [_] => offTree 1
  | .node .condition _ _ [] => offTree 0
  | tree => seedRoot tree
termination_by structural tree => tree

/-- Rewrites allowed at one node unless told otherwise. -/
def defaultLimit : Nat := 100

end NormalForm

namespace Context

/-- Indexes the root by one fresh index per axis. -/
def seed (c : Context) : Except Error Context :=
  c.grow (NormalForm.seed c.tree)

/-- Pushes all indexing down, with at most `limit` rewrites at one node. -/
def normalize (limit : Nat) (c : Context) : Except Error Context :=
  Traversal.run (Traversal.preorder (.ofExcept Rule.rewrite) limit c)

/-- Indexes the root and pushes the index down, with at most `limit` rewrites at one node. -/
def reduce (limit : Nat) (c : Context) : Except Error Context := do
  normalize limit (← c.seed)

end Context

end PsiCalculus
