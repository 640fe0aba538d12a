import PsiCalculus.Shape.Permutation
import PsiCalculus.Proofs.Scope

/-!
# Numbers at run time

What is left to run time is decided by an environment (`Env`): the integers that names stand for and
the shapes that arrays have. `Env.scalar` is the value of a scalar of a guard, `Env.test` that of the
guard itself; both are `none` where the guard refers to something that the environment does not bind.

* `Check`: a comparison of two elements, and `Guards t g checks`: `g` is a conjunction of comparisons
  that stand for the checks.
* `Guards.test_iff`: a guard is true exactly if all of its checks are. `Guards.test_isSome`: it has a
  value if the names of its checks are bound.
-/

namespace PsiCalculus

/-- The comparison of two integers. -/
def CompareOp.holds : CompareOp → Int → Int → Bool
  | equal, a, b => a == b
  | notEqual, a, b => a != b
  | less, a, b => decide (a < b)
  | lessEqual, a, b => decide (a ≤ b)
  | greater, a, b => decide (a > b)
  | greaterEqual, a, b => decide (a ≥ b)

/-- The connective of two truth values. -/
def LogicOp.join : LogicOp → Bool → Bool → Bool
  | and => Bool.and
  | or => Bool.or

/-- The integers that names stand for, and the shapes that arrays have. -/
structure Env where
  number : String → Option Int
  extent : String → Option (List Int)

namespace Env

/-- Every name stands for an integer, and nothing is known of arrays. -/
def ofValuation (σ : String → Int) : Env := ⟨fun name => some (σ name), fun _ => none⟩

/-- The integer of an element. -/
def element (ρ : Env) : Element → Option Int
  | .int n => some n
  | .symbolic node => node.name?.bind ρ.number

/-- The integers of a list of elements. -/
def elements (ρ : Env) (es : Shape) : Option (List Int) := es.mapM ρ.element

/-- The shape that a leaf has. -/
def leafExtent (ρ : Env) (leaf : Expr) : Option (List Int) :=
  leaf.arrayName?.bind ρ.extent

/-- The value of the array called `name` as a scalar: the table's constant, else the number of the
name. -/
def named (t : SymbolTable) (ρ : Env) (name : String) : Option Int :=
  match (t.get? name).bind Symbol.value with
  | some [e] => ρ.element e
  | some _ => none
  | none => ρ.number name

/-- The one element of a vector leaf. -/
def position (t : SymbolTable) (ρ : Env) (vector : Expr) : Option Int := do
  match (← t.get? (← vector.arrayName?)).value with
  | some [e] => ρ.element e
  | _ => none

/-- The value of a scalar of a guard: a leaf, the rank of an argument, or the length of an axis of
an argument. -/
def scalar (t : SymbolTable) (ρ : Env) : Expr → Option Int
  | .node .array _ (.name name) [] => named t ρ name
  | .node .dim _ _ [operand] => do return (← ρ.leafExtent operand).length
  | .node .psi _ _ [vector, .node .shape _ _ [operand]] => do
    Shape.at? (← ρ.leafExtent operand) (← position t ρ vector)
  | _ => none

/-- The value of a guard. -/
def test (t : SymbolTable) (ρ : Env) : Expr → Option Bool
  | .node (.compare op) _ _ [left, right] => do
    return op.holds (← scalar t ρ left) (← scalar t ρ right)
  | .node (.logic op) _ _ [left, right] => do
    return op.join (← test t ρ left) (← test t ρ right)
  | .node .not _ _ [operand] => do return !(← test t ρ operand)
  | _ => none
termination_by structural e => e

@[simp] theorem element_int (ρ : Env) (n : Int) : ρ.element (.int n) = some n := rfl

@[simp] theorem element_named (ρ : Env) (name : String) :
    ρ.element (.named name) = ρ.number name := rfl

@[simp] theorem number_ofValuation (σ : String → Int) (name : String) :
    (ofValuation σ).number name = some (σ name) := rfl

@[simp] theorem scalar_array (t : SymbolTable) (ρ : Env) (name : String) (shape : Option Shape) :
    scalar t ρ (.array name shape) = named t ρ name := by
  rw [Expr.array, scalar]

@[simp] theorem leafExtent_array (ρ : Env) (name : String) (shape : Option Shape) :
    ρ.leafExtent (.array name shape) = ρ.extent name := by
  simp [leafExtent, Expr.arrayName?, Expr.array, Expr.name?]

theorem test_compare (t : SymbolTable) (ρ : Env) (op : CompareOp) (shape : Option Shape)
    (l r : Expr) : test t ρ (.binary (.compare op) shape l r) =
      (scalar t ρ l).bind fun a => (scalar t ρ r).bind fun b => some (op.holds a b) := rfl

theorem test_and (t : SymbolTable) (ρ : Env) (shape : Option Shape) (l r : Expr) :
    test t ρ (.binary (.logic .and) shape l r) =
      (test t ρ l).bind fun a => (test t ρ r).bind fun b => some (a && b) := rfl

theorem test_not (t : SymbolTable) (ρ : Env) (shape : Option Shape) (e : Expr) :
    test t ρ (.unary .not shape e) = (test t ρ e).map (!·) := by
  rw [Expr.unary, test]
  cases test t ρ e <;> rfl

theorem named_of_value {t : SymbolTable} {name : String} {s : Symbol} {e : Element} (ρ : Env)
    (hs : t.get? name = some s) (hv : s.value = some [e]) : named t ρ name = ρ.element e := by
  rw [named, hs, Option.bind_some, hv]

theorem named_of_open {t : SymbolTable} {name : String} {s : Symbol} (ρ : Env)
    (hs : t.get? name = some s) (hv : s.value = none) : named t ρ name = ρ.number name := by
  rw [named, hs, Option.bind_some, hv]

/-- The integers of a list, place by place. -/
theorem elements_eq_some {ρ : Env} {es : Shape} {is : List Int} : ρ.elements es = some is ↔
    is.length = es.length ∧ ∀ (i : Nat) (e : Element), es[i]? = some e → ρ.element e = is[i]? := by
  rw [elements, mapM_eq_some, List.forall₂_iff_get]
  constructor
  · rintro ⟨hlen, hget⟩
    refine ⟨hlen.symm, fun i e he => ?_⟩
    obtain ⟨hi, rfl⟩ := List.getElem?_eq_some_iff.1 he
    rw [List.getElem?_eq_getElem (hlen ▸ hi)]
    exact hget i hi (hlen ▸ hi)
  · rintro ⟨hlen, hget⟩
    refine ⟨hlen.symm, fun i hi hi' => ?_⟩
    have := hget i _ (List.getElem?_eq_getElem hi)
    rwa [List.getElem?_eq_getElem hi'] at this

/-- The integer of an element, if it is bound. -/
def value (ρ : Env) (x : Element) : Int := (ρ.element x).getD 0

theorem elements_eq {ρ : Env} {s : Shape} (h : ∀ x ∈ s, (ρ.element x).isSome) :
    ρ.elements s = some (s.map ρ.value) := by
  refine mapM_eq_some.2 (List.forall₂_map_right_iff.2 (List.forall₂_same.2 fun x hx => ?_))
  obtain ⟨i, hi⟩ := Option.isSome_iff_exists.1 (h x hx)
  rw [value, hi, Option.getD_some]

theorem map_value_of_elements {ρ : Env} {s : Shape} {is : List Int} (h : ρ.elements s = some is) :
    s.map ρ.value = is := by
  have hpairs := mapM_eq_some.1 h
  rw [← List.forall₂_eq_eq_eq, List.forall₂_map_left_iff]
  exact hpairs.imp fun x i hx => by rw [value, hx, Option.getD_some]

end Env

open SymbolTable

/-! ## Checks -/

/-- A comparison of two elements. -/
structure Check where
  op : CompareOp
  left : Element
  right : Element
  deriving DecidableEq

/-- The value of a check. -/
def Check.test (ρ : Env) (c : Check) : Option Bool := do
  return c.op.holds (← ρ.element c.left) (← ρ.element c.right)

/-- The check is true. -/
def Check.Holds (ρ : Env) (c : Check) : Prop := c.test ρ = some true

/-- A scalar that stands for an element: the element's node, or the leaf of an integer constant. -/
inductive Stands (t : SymbolTable) : Expr → Element → Prop
  | symbolic {name : String} : t.get? name = some (.array (some []) none) →
      Stands t (.array name (some [])) (.named name)
  | constant {name : String} {n : Int} : isGenerated name = true →
      t.get? name = some (.array (some []) (some [.int n])) →
      Stands t (.array name (some [])) (.int n)

theorem Stands.mono {t t' : SymbolTable} (h : Extends t t') {e : Expr} {x : Element}
    (hs : Stands t e x) : Stands t' e x := by
  cases hs with
  | symbolic hg => exact .symbolic (h.get? hg)
  | constant hn hg => exact .constant hn (h.get? hg)

theorem Stands.scalar {t : SymbolTable} {e : Expr} {x : Element} (h : Stands t e x) (ρ : Env) :
    Env.scalar t ρ e = ρ.element x := by
  cases h with
  | symbolic hg => rw [Env.scalar_array, Env.named_of_open ρ hg rfl, Env.element_named]
  | constant _ hg => rw [Env.scalar_array, Env.named_of_value ρ hg rfl]

/-- A comparison that stands for a check. -/
inductive Defers (t : SymbolTable) : Expr → Check → Prop
  | compare {op : CompareOp} {l r : Expr} {x y : Element} : Stands t l x → Stands t r y →
      Defers t (.binary (.compare op) (some []) l r) ⟨op, x, y⟩

theorem Defers.mono {t t' : SymbolTable} (h : Extends t t') {e : Expr} {c : Check}
    (hd : Defers t e c) : Defers t' e c := by
  cases hd with
  | compare hl hr => exact .compare (hl.mono h) (hr.mono h)

theorem Defers.test {t : SymbolTable} {e : Expr} {c : Check} (h : Defers t e c) (ρ : Env) :
    Env.test t ρ e = c.test ρ := by
  cases h with
  | compare hl hr =>
    rw [Env.test_compare, hl.scalar, hr.scalar]
    rfl

/-- A conjunction of comparisons that stand for checks. -/
inductive Guards (t : SymbolTable) : Expr → List Check → Prop
  | one {e : Expr} {c : Check} : Defers t e c → Guards t e [c]
  | and {l r : Expr} {cs ds : List Check} : Guards t l cs → Guards t r ds →
      Guards t (.binary (.logic .and) (some []) l r) (cs ++ ds)

theorem Guards.mono {t t' : SymbolTable} (h : Extends t t') {e : Expr} {cs : List Check}
    (hg : Guards t e cs) : Guards t' e cs := by
  induction hg with
  | one hd => exact .one (hd.mono h)
  | and _ _ ihl ihr => exact .and ihl ihr

theorem Guards.test_iff {t : SymbolTable} {g : Expr} {cs : List Check} (hg : Guards t g cs)
    (ρ : Env) : Env.test t ρ g = some true ↔ ∀ c ∈ cs, c.Holds ρ := by
  induction hg with
  | one hd => simp [hd.test, Check.Holds]
  | @and l r cs ds _ _ ihl ihr =>
    rw [List.forall_mem_append, ← ihl, ← ihr, Env.test_and]
    cases Env.test t ρ l <;> cases Env.test t ρ r <;> simp

theorem Guards.test_isSome {t : SymbolTable} {g : Expr} {cs : List Check} (hg : Guards t g cs)
    {ρ : Env} (hb : ∀ c ∈ cs, (c.test ρ).isSome) : (Env.test t ρ g).isSome := by
  induction hg with
  | one hd => simpa [hd.test] using hb
  | @and l r cs ds _ _ ihl ihr =>
    rw [List.forall_mem_append] at hb
    obtain ⟨a, ha⟩ := Option.isSome_iff_exists.1 (ihl hb.1)
    obtain ⟨b, hb⟩ := Option.isSome_iff_exists.1 (ihr hb.2)
    simp [Env.test_and, ha, hb]

/-- A guard is tested alike where its checks are, also over a larger table. -/
theorem Guards.test_congr {t t' : SymbolTable} (h : Extends t t') {g : Expr} {cs : List Check}
    (hg : Guards t g cs) {ρ ρ' : Env} (hcs : ∀ c ∈ cs, c.test ρ' = c.test ρ) :
    Env.test t' ρ' g = Env.test t ρ g := by
  induction hg with
  | one hd => rw [(hd.mono h).test, hd.test, hcs _ (.head _)]
  | and _ _ ihl ihr =>
    rw [List.forall_mem_append] at hcs
    rw [Env.test_and, Env.test_and, ihl hcs.1, ihr hcs.2]

end PsiCalculus
