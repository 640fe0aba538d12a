import PsiCalculus.Expr

/-! # Patterns

Shapes of trees that rewrite rules look for: an operator, or a class of operators, at the root, and
patterns for the operands. A pattern without operand patterns leaves the operands open.
-/

namespace PsiCalculus

/-- The operators a place in a pattern admits. -/
inductive OperatorClass where
  | exact (op : Operator)
  | elementwise
  | outer
  | inner
  | reduce
  deriving DecidableEq, Repr

/-- Whether the class has the operator. -/
def OperatorClass.has : OperatorClass → Operator → Bool
  | exact expected, op => expected = op
  | elementwise, op => op.isElementwise
  | outer, .outer _ => true
  | inner, .inner _ _ => true
  | reduce, .reduce _ => true
  | _, _ => false

/-- A tree with open places. -/
inductive Pattern where
  | any
  | node (root : OperatorClass) (operands : List Pattern)

namespace Pattern

mutual

/-- Whether the tree fits the pattern. -/
def fits : Pattern → Expr → Bool
  | any, _ => true
  | node root operands, e =>
    root.has e.op &&
      (operands.isEmpty || (operands.length == e.children.length && fitsAll operands e.children))
termination_by structural p => p

/-- Whether each tree fits the pattern at its place. -/
def fitsAll : List Pattern → List Expr → Bool
  | p :: ps, e :: es => p.fits e && fitsAll ps es
  | _, _ => true
termination_by structural ps => ps

end

/-- Indexing of an operator of the class, by whatever index. -/
def psiOver (operand : OperatorClass) : Pattern :=
  node (.exact .psi) [any, node operand []]

end Pattern

end PsiCalculus
