import PsiCalculus.Error

/-! # Paths into expressions

Selecting the node at a path and replacing it. Replacing builds the ancestors of the node anew, each
with as many operands as before; a node whose operator does not admit them cannot be built.
-/

namespace PsiCalculus.Expr

/-- The node with other operands, if its operator admits as many. -/
def rebuild (e : Expr) (children : List Expr) : Except Error Expr :=
  if e.op.arity.accepts children.length then .ok (e.withChildren children)
  else .error (.malformed e.op children.length)

/-- The node at the end of `rest`, a part of `path` that starts `depth` steps below its root. -/
def selectFrom (path : Path) : Nat → Expr → Path → Except Error Expr
  | _, e, [] => .ok e
  | depth, e, i :: rest =>
    match e.children[i]? with
    | some child => selectFrom path (depth + 1) child rest
    | none => .error (.pattern [] (.offTree path depth))

/-- The node at a path. -/
def select (e : Expr) (path : Path) : Except Error Expr :=
  selectFrom path 0 e path

/-- The tree with the node at a path replaced. -/
def replace : Expr → Path → Expr → Except Error Expr
  | _, [], replacement => .ok replacement
  | e, i :: rest, replacement =>
    match e.children[i]? with
    | some child => do
      let child ← child.replace rest replacement
      e.rebuild (e.children.set i child)
    | none => .error (.pattern [] (.noChild e.op i))

@[simp] theorem select_nil (e : Expr) : e.select [] = .ok e := rfl

@[simp] theorem replace_nil (e replacement : Expr) : e.replace [] replacement = .ok replacement := by
  rw [replace]

/-- Selecting below a child is selecting in the child, as long as the path stays in the tree. -/
theorem selectFrom_cons {path : Path} {depth i : Nat} {rest : Path} {e child : Expr}
    (h : e.children[i]? = some child) :
    selectFrom path depth e (i :: rest) = selectFrom path (depth + 1) child rest := by
  rw [selectFrom, h]

end PsiCalculus.Expr
