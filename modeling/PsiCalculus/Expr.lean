import PsiCalculus.Operator

/-! # Expressions

An expression is a tree of operators. A node may know its shape, a list of elements, and carries a
payload: the name of an array, the range of a loop, the message of an error. An element is an
integer or symbolic; a symbolic element is itself an expression, in practice the leaf that names a
scalar known only at run time. Elements, payloads and expressions are therefore one mutual family.

* `Expr.induction_on_children`: a property holds of every expression if it passes from the children
  of a node to the node.
* Equality is decided by `Expr.equal`, which recurses on both trees and computes in the kernel
  (`Expr.equal_iff`).
-/

namespace PsiCalculus

/-- Which promise about its arguments a guard checks. -/
inductive GuardKind where
  | dimension
  | shape
  | incompatibleShape
  deriving DecidableEq, Repr

mutual

/-- One entry of a shape or of a value. -/
inductive Element where
  | int (value : Int)
  | symbolic (node : Expr)

/-- What a node carries besides its operands. -/
inductive Payload where
  | none
  /-- The name of an array, of the array to allocate, or of the index a reduction binds. -/
  | name (name : String)
  | raise (kind : GuardKind) (message : String)
  | function (arguments : List String) (result : String)
  | loop (index : String) (start stop step : Element)

/-- A tree of operators. -/
inductive Expr where
  | node (op : Operator) (shape : Option (List Element)) (payload : Payload) (children : List Expr)

end

instance : Inhabited Element := ⟨.int 0⟩
instance : Inhabited Payload := ⟨.none⟩
instance : Inhabited Expr := ⟨.node .array none .none []⟩

/-- The lengths of the axes, outermost first. -/
abbrev Shape := List Element

/-! ## Induction -/

/-- Induction that gives the hypothesis for every child of a node. -/
theorem Expr.induction_on_children {motive : Expr → Prop}
    (node : ∀ op shape payload children, (∀ c ∈ children, motive c) →
      motive (.node op shape payload children)) (e : Expr) : motive e :=
  @Expr.rec (fun _ => True) (fun _ => True) motive (fun _ => True)
    (fun children => ∀ c ∈ children, motive c) (fun _ => True)
    (fun _ => trivial) (fun _ _ => trivial)
    trivial (fun _ => trivial) (fun _ _ => trivial) (fun _ _ => trivial)
    (fun _ _ _ _ _ _ _ => trivial)
    (fun op shape payload children _ _ ih => node op shape payload children ih)
    trivial (fun _ _ => trivial)
    (fun _ h => nomatch h)
    (fun _ _ ihc ihcs _ h => by
      rcases List.mem_cons.1 h with rfl | h
      · exact ihc
      · exact ihcs _ h)
    trivial (fun _ _ _ _ => trivial) e

/-! ## Parts of a node -/

namespace Expr

/-- The operator of the root. -/
def op : Expr → Operator
  | .node op _ _ _ => op

/-- The shape of the root, if it is known. -/
def shape : Expr → Option Shape
  | .node _ shape _ _ => shape

/-- The payload of the root. -/
def payload : Expr → Payload
  | .node _ _ payload _ => payload

/-- The operands of the root. -/
def children : Expr → List Expr
  | .node _ _ _ children => children

@[simp] theorem op_node (op shape payload children) :
    (Expr.node op shape payload children).op = op := rfl
@[simp] theorem shape_node (op shape payload children) :
    (Expr.node op shape payload children).shape = shape := rfl
@[simp] theorem payload_node (op shape payload children) :
    (Expr.node op shape payload children).payload = payload := rfl
@[simp] theorem children_node (op shape payload children) :
    (Expr.node op shape payload children).children = children := rfl

/-- The name the payload holds, if it is one. -/
def name? (e : Expr) : Option String :=
  match e.payload with
  | .name name => some name
  | _ => none

/-- The same node with another shape. -/
def withShape : Expr → Option Shape → Expr
  | .node op _ payload children, shape => .node op shape payload children

/-- The same node with another payload. -/
def withPayload : Expr → Payload → Expr
  | .node op shape _ children, payload => .node op shape payload children

/-- The same node with other operands. -/
def withChildren : Expr → List Expr → Expr
  | .node op shape payload _, children => .node op shape payload children

/-- The leaf of the array called `name`. -/
def array (name : String) (shape : Option Shape) : Expr :=
  .node .array shape (.name name) []

/-- A node with one operand and no payload. -/
def unary (op : Operator) (shape : Option Shape) (operand : Expr) : Expr :=
  .node op shape .none [operand]

/-- A node with two operands and no payload. -/
def binary (op : Operator) (shape : Option Shape) (left right : Expr) : Expr :=
  .node op shape .none [left, right]

/-- The name of an array leaf; `none` for every other node. -/
def arrayName? (e : Expr) : Option String :=
  if e.op = .array then e.name? else none

mutual

/-- The number of nodes, element nodes not counted. -/
def size : Expr → Nat
  | .node _ _ _ children => 1 + sizeAll children
termination_by structural e => e

/-- The number of nodes of all trees of a list. -/
def sizeAll : List Expr → Nat
  | [] => 0
  | c :: cs => c.size + sizeAll cs
termination_by structural cs => cs

end

mutual

/-- Every node below and including the root has a number of operands its operator admits. -/
def wellFormed : Expr → Bool
  | .node op _ _ children => op.arity.accepts children.length && wellFormedAll children
termination_by structural e => e

/-- Every tree of a list is well formed. -/
def wellFormedAll : List Expr → Bool
  | [] => true
  | c :: cs => c.wellFormed && wellFormedAll cs
termination_by structural cs => cs

end

end Expr

/-! ## Equality -/

mutual

/-- Decides equality of elements. -/
def Element.equal : Element → Element → Bool
  | .int m, .int n => m == n
  | .symbolic a, .symbolic b => a.equal b
  | _, _ => false
termination_by structural e => e

/-- Decides equality of element lists. -/
def Element.equalAll : List Element → List Element → Bool
  | [], [] => true
  | a :: as, b :: bs => a.equal b && Element.equalAll as bs
  | _, _ => false
termination_by structural e => e

/-- Decides equality of optional shapes. -/
def Element.equalShapes : Option (List Element) → Option (List Element) → Bool
  | none, none => true
  | some a, some b => Element.equalAll a b
  | _, _ => false
termination_by structural e => e

/-- Decides equality of payloads. -/
def Payload.equal : Payload → Payload → Bool
  | .none, .none => true
  | .name a, .name b => a == b
  | .raise k m, .raise k' m' => k == k' && m == m'
  | .function as r, .function as' r' => as == as' && r == r'
  | .loop i a b c, .loop i' a' b' c' => i == i' && (a.equal a' && (b.equal b' && c.equal c'))
  | _, _ => false
termination_by structural e => e

/-- Decides equality of expressions. -/
def Expr.equal : Expr → Expr → Bool
  | .node op shape payload children, .node op' shape' payload' children' =>
    op == op' && (Element.equalShapes shape shape' &&
      (payload.equal payload' && Expr.equalAll children children'))
termination_by structural e => e

/-- Decides equality of lists of expressions. -/
def Expr.equalAll : List Expr → List Expr → Bool
  | [], [] => true
  | a :: as, b :: bs => a.equal b && Expr.equalAll as bs
  | _, _ => false
termination_by structural e => e

end

mutual

theorem Element.equal_iff : ∀ {a b : Element}, a.equal b = true ↔ a = b
  | .int m, .int n => by simp [Element.equal]
  | .symbolic a, .symbolic b => by simp [Element.equal, Expr.equal_iff (a := a) (b := b)]
  | .int _, .symbolic _ | .symbolic _, .int _ => by simp [Element.equal]
termination_by structural a => a

theorem Element.equalAll_iff : ∀ {a b : List Element}, Element.equalAll a b = true ↔ a = b
  | [], [] | [], _ :: _ | _ :: _, [] => by simp [Element.equalAll]
  | a :: as, b :: bs => by
    simp [Element.equalAll, Element.equal_iff (a := a) (b := b),
      Element.equalAll_iff (a := as) (b := bs)]
termination_by structural a => a

theorem Element.equalShapes_iff : ∀ {a b : Option (List Element)},
    Element.equalShapes a b = true ↔ a = b
  | none, none | none, some _ | some _, none => by simp [Element.equalShapes]
  | some a, some b => by simp [Element.equalShapes, Element.equalAll_iff (a := a) (b := b)]
termination_by structural a => a

theorem Payload.equal_iff : ∀ {a b : Payload}, a.equal b = true ↔ a = b
  | .loop i a b c, .loop j d e f => by
    simp [Payload.equal, Element.equal_iff (a := a) (b := d), Element.equal_iff (a := b) (b := e),
      Element.equal_iff (a := c) (b := f)]
  | .none, b => by cases b <;> simp [Payload.equal]
  | .name _, b => by cases b <;> simp [Payload.equal]
  | .raise _ _, b => by cases b <;> simp [Payload.equal]
  | .function _ _, b => by cases b <;> simp [Payload.equal]
  | .loop _ _ _ _, .none | .loop _ _ _ _, .name _ | .loop _ _ _ _, .raise _ _
  | .loop _ _ _ _, .function _ _ => by simp [Payload.equal]
termination_by structural a => a

theorem Expr.equal_iff : ∀ {a b : Expr}, a.equal b = true ↔ a = b
  | .node op shape payload children, .node op' shape' payload' children' => by
    simp [Expr.equal, Element.equalShapes_iff (a := shape) (b := shape'),
      Payload.equal_iff (a := payload) (b := payload'),
      Expr.equalAll_iff (a := children) (b := children')]
termination_by structural a => a

theorem Expr.equalAll_iff : ∀ {a b : List Expr}, Expr.equalAll a b = true ↔ a = b
  | [], [] | [], _ :: _ | _ :: _, [] => by simp [Expr.equalAll]
  | a :: as, b :: bs => by
    simp [Expr.equalAll, Expr.equal_iff (a := a) (b := b), Expr.equalAll_iff (a := as) (b := bs)]
termination_by structural a => a

end

instance : DecidableEq Element := fun a b =>
  decidable_of_iff (a.equal b = true) Element.equal_iff

instance : DecidableEq Payload := fun a b =>
  decidable_of_iff (a.equal b = true) Payload.equal_iff

instance : DecidableEq Expr := fun a b =>
  decidable_of_iff (a.equal b = true) Expr.equal_iff

end PsiCalculus
