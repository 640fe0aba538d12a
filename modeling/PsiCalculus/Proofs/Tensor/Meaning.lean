import PsiCalculus.Proofs.Numbers
import PsiCalculus.Proofs.Shape.Law
import PsiCalculus.Proofs.Tensor.Basic

/-!
# What expressions mean

The elements of arrays are taken from a domain: any type with the four operations and a reading of
the integers in it. A memory gives the names their integers and the arrays their contents.

* `denote D t m e`: the whole array that an expression stands for.
* `eval D t m e`: the value of an expression that acts on single elements: the element of what an
  operand denotes at an index vector, an operation on such, or a fold over the range of a bound index.
  The operand may be any expression, so that trees have values while they are rewritten; in a reduced
  tree it is an array, or the shape or rank of one.

Both are undefined where an expression has no meaning. Both look a name up only if the expression
mentions it, so they are the same over a larger table (`denote_extends`, `eval_extends`).
-/

namespace PsiCalculus

open SymbolTable

/-- Values, with operations and a reading of the integers. -/
structure Domain (V : Type) where
  apply : ArithOp → V → V → V
  ofInt : Int → V

/-- The integers themselves, with the division that rounds down. -/
def Domain.integers : Domain Int where
  apply
    | .plus => (· + ·)
    | .minus => (· - ·)
    | .times => (· * ·)
    | .divide => Int.fdiv
  ofInt := id

/-- The integers that names stand for, and the contents of arrays. -/
structure Memory (V : Type) where
  number : String → Option Int
  array : String → Option (Tensor V)

namespace Memory

variable {V : Type}

/-- The memory in which every name stands for an integer. -/
def ofValuation (σ : String → Int) (arrays : String → Option (Tensor V)) : Memory V :=
  ⟨fun name => some (σ name), arrays⟩

/-- What guards see of a memory. -/
def env (m : Memory V) : Env := ⟨m.number, fun name => (m.array name).map Tensor.shape⟩

/-- The memory in which `name` stands for `i`. -/
def bind (m : Memory V) (name : String) (i : Int) : Memory V :=
  { m with number := fun n => if n = name then some i else m.number n }

/-- The memory in which each of the names stands for the integer at its place. -/
def bindAll : Memory V → List String → List Int → Memory V
  | m, name :: names, i :: is => (m.bind name i).bindAll names is
  | m, _, _ => m

@[simp] theorem env_number (m : Memory V) : m.env.number = m.number := rfl
@[simp] theorem bind_array (m : Memory V) (name : String) (i : Int) :
    (m.bind name i).array = m.array := rfl
@[simp] theorem bind_self (m : Memory V) (name : String) (i : Int) :
    (m.bind name i).number name = some i := if_pos rfl

theorem bind_other (m : Memory V) {name other : String} (i : Int) (h : other ≠ name) :
    (m.bind name i).number other = m.number other := if_neg h

theorem bindAll_array (m : Memory V) (names : List String) (x : List Int) :
    (m.bindAll names x).array = m.array := by
  fun_induction bindAll m names x with
  | case1 m name names i is ih => exact ih
  | case2 => rfl

theorem bindAll_other {m : Memory V} {names : List String} {x : List Int} {name : String}
    (h : name ∉ names) : (m.bindAll names x).number name = m.number name := by
  fun_induction bindAll m names x with
  | case1 m head names i is ih =>
    rw [List.mem_cons, not_or] at h
    rw [ih h.2, bind_other m i h.1]
  | case2 => rfl

theorem bindAll_concat (name : String) (i : Int) : ∀ (m : Memory V) {names : List String}
    {x : List Int}, names.length = x.length →
    m.bindAll (names ++ [name]) (x ++ [i]) = (m.bindAll names x).bind name i
  | _, [], [], _ => rfl
  | m, head :: _, j :: _, h => bindAll_concat name i (m.bind head j) (Nat.succ.inj h)

/-- Each of the names stands for its integer. -/
theorem bindAll_elements : ∀ {m : Memory V} {names : List String} {x : List Int}, names.Nodup →
    names.length = x.length → (m.bindAll names x).env.elements (names.map .named) = some x
  | _, [], [], _, _ => rfl
  | m, name :: names, i :: x, hn, hlen => by
    obtain ⟨hnot, hn⟩ := List.nodup_cons.1 hn
    refine mapM_eq_some.2 (.cons ?_ (mapM_eq_some.1 (bindAll_elements hn (Nat.succ.inj hlen))))
    rw [Env.element_named, env_number, bindAll, bindAll_other hnot, bind_self]

/-- The integers that an index runs over. -/
def range (t : SymbolTable) (m : Memory V) (index : String) : Option (List Int) := do
  match (← t.get? index).value with
  | some [start, stop, step] =>
    return steps (← m.env.element start) (← m.env.element stop) (← m.env.element step)
  | _ => none

end Memory

section
variable {V : Type} (D : Domain V) (t : SymbolTable) (m : Memory V)

/-- The array of a name: the table's value for it, else its content. -/
def denoteName (name : String) : Option (Tensor V) :=
  match (t.get? name).bind Symbol.value with
  | some values => (m.env.elements values).map fun is => .vector (is.map D.ofInt)
  | none => m.array name

/-- The whole array that an expression stands for. -/
def denote : Expr → Option (Tensor V)
  | .node .array _ (.name name) [] => denoteName D t m name
  | .node .transpose _ _ [e] => (denote e).map Tensor.transpose
  | .node .permute _ _ [p, e] => do
    let places ← Shape.ints? (← t.valueOf p)
    (← denote e).permute places
  | .node .psi _ _ [v, e] => do
    let index ← m.env.elements (← t.valueOf v)
    return (← denote e).select index
  | .node (.arith op) _ _ [l, r] => do (← denote l).pointwise (D.apply op) (← denote r)
  | .node (.outer op) _ _ [l, r] => do return (← denote l).outer (D.apply op) (← denote r)
  | .node (.inner fold join) _ _ [l, r] => do
    (← denote l).inner (D.apply fold) (D.apply join) (← denote r)
  | .node (.reduce op) _ .none [e] => do (← denote e).reduce (D.apply op)
  | .node .shape _ _ [e] => do return .vector ((← denote e).shape.map D.ofInt)
  | .node .dim _ _ [e] => do return .scalar (D.ofInt (← denote e).rank)
  | _ => none
termination_by structural e => e

/-- The value of an expression with index vectors: each of them picks an element of the whole array that
its operand denotes, reduced or not. -/
def eval (m : Memory V) : Expr → Option V
  | .node .array _ (.name name) [] => do (← denoteName D t m name).cell []
  | .node .psi _ _ [v, e] => do
    let index ← m.env.elements (← t.valueOf v)
    (← denote D t m e).cell index
  | .node (.arith op) _ _ [l, r] => Tensor.joinCells (D.apply op) (eval m l) (eval m r)
  | .node (.reduce op) _ (.name index) [e] => do
    foldOver (D.apply op) (← m.range t index) fun i => eval (m.bind index i) e
  | _ => none
termination_by structural e => e

end

/-! ## Larger tables -/

section
variable {V : Type} {D : Domain V} {t t' : SymbolTable}

theorem denoteName_extends (h : Extends t t') (m : Memory V) {name : String} (hn : name ∈ t.names) :
    denoteName D t' m name = denoteName D t m name := by
  rw [denoteName, denoteName, h.get?_eq hn]

theorem denote_extends (h : Extends t t') (m : Memory V) (e : Expr) (he : e.Known t) :
    denote D t' m e = denote D t m e := by
  fun_induction denote D t m e with
  | case1 => rw [denote, denoteName_extends h m he.name]
  | case2 _ _ e ih => rw [denote, ih (he.child e (by simp))]
  | case3 _ _ p e ih =>
    rw [denote, ih (he.child e (by simp)), valueOf_extends h (he.child p (by simp))]
  | case4 _ _ v e ih =>
    rw [denote, ih (he.child e (by simp)), valueOf_extends h (he.child v (by simp))]
  | case5 op _ _ l r ihl ihr => rw [denote, ihl (he.child l (by simp)), ihr (he.child r (by simp))]
  | case6 op _ _ l r ihl ihr => rw [denote, ihl (he.child l (by simp)), ihr (he.child r (by simp))]
  | case7 fold join _ _ l r ihl ihr =>
    rw [denote, ihl (he.child l (by simp)), ihr (he.child r (by simp))]
  | case8 op _ e ih => rw [denote, ih (he.child e (by simp))]
  | case9 _ _ e ih => rw [denote, ih (he.child e (by simp))]
  | case10 _ _ e ih => rw [denote, ih (he.child e (by simp))]
  | case11 => rw [denote] <;> assumption

theorem eval_extends (h : Extends t t') (m : Memory V) (e : Expr) (he : e.Known t) :
    eval D t' m e = eval D t m e := by
  fun_induction eval D t m e with
  | case1 => rw [eval, denoteName_extends h _ he.name]
  | case2 m _ _ v e =>
    rw [eval, denote_extends h m e (he.child e (by simp)), valueOf_extends h (he.child v (by simp))]
  | case3 m op _ _ l r ihl ihr => rw [eval, ihl (he.child l (by simp)), ihr (he.child r (by simp))]
  | case4 m op _ index e ih =>
    have hrange : m.range t' index = m.range t index := by
      unfold Memory.range
      rw [h.get?_eq he.name]
    have hbody : ∀ i, eval D t' (m.bind index i) e = eval D t (m.bind index i) e :=
      fun i => ih i (he.child e (by simp))
    rw [eval, hrange]
    simp only [hbody]
  | case5 => rw [eval] <;> assumption

end

/-! ## Memories that agree -/

/-- The memories differ at most in arrays that the table does not have. -/
structure Memory.Agrees {V : Type} (t : SymbolTable) (m m' : Memory V) : Prop where
  number : m'.number = m.number
  array : ∀ name ∈ t.names, m'.array name = m.array name

section
variable {V : Type} {D : Domain V} {t : SymbolTable} {m m' : Memory V}

theorem Env.elements_congr {ρ ρ' : Env} (h : ρ'.number = ρ.number) (es : Shape) :
    ρ'.elements es = ρ.elements es := by
  obtain ⟨number, extent⟩ := ρ
  obtain ⟨number', extent'⟩ := ρ'
  cases h
  rfl

theorem Memory.range_congr (h : m'.number = m.number) (index : String) :
    m'.range t index = m.range t index := by
  obtain ⟨number, array⟩ := m
  obtain ⟨number', array'⟩ := m'
  cases h
  rfl

/-- What a name denotes depends on the numbers and on the array of that name. -/
theorem denoteName_of_array (h : m'.number = m.number) {name : String}
    (hname : m'.array name = m.array name) : denoteName D t m' name = denoteName D t m name := by
  have helements : ∀ es, m'.env.elements es = m.env.elements es := Env.elements_congr h
  simp only [denoteName, helements, hname]

theorem Memory.Agrees.elements (h : m.Agrees t m') (es : Shape) :
    m'.env.elements es = m.env.elements es := Env.elements_congr h.number es

theorem Memory.Agrees.bind (h : m.Agrees t m') (name : String) (i : Int) :
    (m.bind name i).Agrees t (m'.bind name i) := by
  refine ⟨?_, h.array⟩
  simp only [Memory.bind, h.number]

theorem denoteName_congr (h : m.Agrees t m') {name : String} (hn : name ∈ t.names) :
    denoteName D t m' name = denoteName D t m name :=
  denoteName_of_array h.number (h.array name hn)

theorem denote_congr (h : m.Agrees t m') (e : Expr) (he : e.Known t) :
    denote D t m' e = denote D t m e := by
  fun_induction denote D t m e with
  | case1 => rw [denote, denoteName_congr h he.name]
  | case2 _ _ e ih | case3 _ _ _ e ih | case8 _ _ e ih | case9 _ _ e ih | case10 _ _ e ih =>
    rw [denote, ih (he.child e (by simp))]
  | case4 _ _ v e ih =>
    simp only [denote, ih (he.child e (by simp)), h.elements]
  | case5 _ _ _ l r ihl ihr | case6 _ _ _ l r ihl ihr | case7 _ _ _ _ l r ihl ihr =>
    rw [denote, ihl (he.child l (by simp)), ihr (he.child r (by simp))]
  | case11 => rw [denote] <;> assumption

/-- The value of a tree depends on the arrays that the table has only. -/
theorem eval_congr (h : m.Agrees t m') (e : Expr) (he : e.Known t) :
    eval D t m' e = eval D t m e := by
  fun_induction eval D t m e generalizing m' with
  | case1 => rw [eval, denoteName_congr h he.name]
  | case2 m _ _ v e =>
    simp only [eval, denote_congr h e (he.child e (by simp)), h.elements]
  | case3 m op _ _ l r ihl ihr =>
    rw [eval, ihl h (he.child l (by simp)), ihr h (he.child r (by simp))]
  | case4 m op _ index e ih =>
    have hbody : ∀ i, eval D t (m'.bind index i) e = eval D t (m.bind index i) e :=
      fun i => ih i (h.bind index i) (he.child e (by simp))
    rw [eval, Memory.range_congr h.number]
    simp only [hbody]
  | case5 => rw [eval] <;> assumption

end

end PsiCalculus
