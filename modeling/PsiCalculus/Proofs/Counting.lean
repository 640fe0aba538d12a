import Mathlib
import PsiCalculus.Cost
import PsiCalculus.Proofs.Tensor.Axes
import PsiCalculus.Proofs.Traversal

/-!
# Counting in words

A tree is counted by adding, node by node, the number of elements of its shape. Where all nodes that
are counted have one shape, that is a multiple of the size of the shape, and only the last sum can be
too large for a word if any is.

* `Expr.work`: the operations of a tree per element, two for each inner product; `sum_work`: as a sum
  over the kinds of operators.
* `Cost.repeated_product`: a size that is added again and again is counted up to the product, unless
  that, or the product of the first few lengths, is no word.
* `Cost.flopsFrom_single`, `Cost.flopsFrom_pair`: what a node adds to the count of its operands.
* `Cost.flopsFrom_idle`: a tree without work costs nothing.
-/

namespace PsiCalculus

/-! ## Work -/

namespace Operator

/-- How many operations the operator takes for each element. -/
def work : Operator → Nat
  | arith _ | outer _ | reduce _ => 1
  | inner _ _ => 2
  | _ => 0

def isArith : Operator → Bool
  | arith _ => true
  | _ => false

def isOuter : Operator → Bool
  | outer _ => true
  | _ => false

def isInner : Operator → Bool
  | inner _ _ => true
  | _ => false

def isReduce : Operator → Bool
  | reduce _ => true
  | _ => false

theorem work_eq_zero {op : Operator} : op.work = 0 ↔ op.arithmetic? = none := by
  cases op <;> simp [work, arithmetic?]

theorem work_join {op : Operator} (h : op = .assign ∨ op.isElementwise = true) : op.work ≤ 1 := by
  rcases h with rfl | h
  · exact Nat.zero_le 1
  · cases op <;> simp_all [isElementwise, work]

end Operator

theorem sum_work (ops : List Operator) : (ops.map Operator.work).sum =
    ops.countP Operator.isArith + ops.countP Operator.isOuter + 2 * ops.countP Operator.isInner +
      ops.countP Operator.isReduce := by
  induction ops with
  | nil => rfl
  | cons op ops ih =>
    rw [List.map_cons, List.sum_cons, ih]
    simp only [List.countP_cons]
    cases op <;> simp only [Operator.work, Operator.isArith, Operator.isOuter, Operator.isInner,
      Operator.isReduce, Bool.false_eq_true, if_true, if_false] <;> omega

namespace Expr

/-- The operations of a tree for each element. -/
def work (e : Expr) : Nat := (e.operators.map Operator.work).sum

theorem work_node (op : Operator) (s : Option Shape) (p : Payload) (es : List Expr) :
    (node op s p es).work = op.work + (es.map work).sum := by
  have hchildren : ((operatorsAll es).map Operator.work).sum = (es.map work).sum := by
    induction es with
    | nil => rfl
    | cons e es ih =>
      rw [operatorsAll, List.map_append, List.sum_append, ih, List.map_cons, List.sum_cons]
      rfl
  rw [work, operators, List.map_cons, List.sum_cons, hchildren]

theorem work_array (name : String) (s : Option Shape) : (array name s).work = 0 := rfl

theorem work_single (op : Operator) (s : Option Shape) (p : Payload) (e : Expr) :
    (node op s p [e]).work = op.work + e.work := by
  rw [work_node]
  rfl

theorem work_pair (op : Operator) (s : Option Shape) (p : Payload) (l r : Expr) :
    (node op s p [l, r]).work = op.work + (l.work + r.work) := by
  rw [work_node]
  rfl

/-- Selecting and moving axes takes no operations. -/
theorem work_second {op : Operator} (hop : op.work = 0) (s : Option Shape) (p : Payload) {l : Expr}
    (hl : l.work = 0) (r : Expr) : (node op s p [l, r]).work = r.work := by
  rw [work_pair, hop, hl, Nat.zero_add, Nat.zero_add]

theorem work_psi (s a : Option Shape) (v : String) (X : Expr) :
    (binary .psi s (array v a) X).work = X.work :=
  work_second rfl _ _ (work_array v a) X

end Expr

/-! ## Counting -/

namespace Cost

/-- The number is one that a signed 64-bit word holds. -/
def InRange (n : Int) : Prop := -9223372036854775808 ≤ n ∧ n ≤ 9223372036854775807

/-- `count` times the product of the lengths is counted without leaving the words. -/
def Fits (count : Nat) (lengths : List Int) : Prop :=
  0 < count → (∀ n, InRange (lengths.take n).prod) ∧ InRange (count * lengths.prod)

theorem checked_of_inRange {n : Int} (h : InRange n) : checked n = .ok n := if_pos h

theorem checked_of_not {n : Int} (h : ¬ InRange n) : checked n = .error .overflow := if_neg h

theorem productFrom_ok : ∀ (acc : Int) {lengths : List Int},
    (∀ n, InRange (acc * (lengths.take n).prod)) →
    productFrom acc lengths = .ok (acc * lengths.prod)
  | acc, [], _ => by simp [productFrom]
  | acc, n :: rest, h => by
    have hfirst : InRange (acc * n) := by simpa using h 1
    have hrest : ∀ k, InRange (acc * n * (rest.take k).prod) := fun k => by
      simpa [Int.mul_assoc] using h (k + 1)
    rw [productFrom, checked_of_inRange hfirst]
    exact (productFrom_ok _ hrest).trans (by rw [List.prod_cons, Int.mul_assoc])

theorem productFrom_overflow : ∀ {acc : Int} {lengths : List Int}, InRange acc →
    ¬ (∀ n, InRange (acc * (lengths.take n).prod)) →
    productFrom acc lengths = .error .overflow
  | acc, [], hacc, h => by simp [hacc] at h
  | acc, n :: rest, hacc, h => by
    rw [productFrom]
    by_cases hfirst : InRange (acc * n)
    · rw [checked_of_inRange hfirst]
      refine productFrom_overflow hfirst fun hrest => h fun k => ?_
      cases k with
      | zero => simpa using hacc
      | succ k => simpa [Int.mul_assoc] using hrest k
    · rw [checked_of_not hfirst]
      rfl

/-- `own` added to `total`, `count` times over. -/
def repeated (own : Except Error Int) : Nat → Int → Except Error Int
  | 0, total => .ok total
  | count + 1, total => do
    let total ← repeated own count total
    checked (total + (← own))

theorem repeated_add (own : Except Error Int) (m : Nat) (total : Int) : ∀ n,
    repeated own (m + n) total = repeated own m total >>= repeated own n
  | 0 => by
    cases repeated own m total <;> rfl
  | n + 1 => by
    rw [← Nat.add_assoc, repeated, repeated_add own m total n]
    cases repeated own m total <;> rfl

/-- A multiple is farther from zero than the one before. -/
theorem InRange.of_succ {own : Int} {count : Nat} (h : InRange ((count + 1 : Nat) * own)) :
    InRange (count * own) := by
  have hsucc : ((count + 1 : Nat) : Int) * own = count * own + own := by
    rw [Int.natCast_add, Int.add_mul, Int.natCast_one, Int.one_mul]
  rw [hsucc] at h
  unfold InRange at h ⊢
  rcases Int.le_total 0 own with hown | hown
  · have hcount := Int.mul_nonneg (Int.natCast_nonneg count) hown
    omega
  · have hcount := Int.mul_nonpos_of_nonneg_of_nonpos (Int.natCast_nonneg count) hown
    omega

theorem repeated_succ {own : Int} {count : Nat}
    (h : repeated (.ok own) count 0 = .ok (count * own)) :
    repeated (.ok own) (count + 1) 0 = checked ((count + 1 : Nat) * own) := by
  rw [repeated, h]
  show checked (count * own + own) = _
  rw [Int.natCast_add, Int.add_mul, Int.natCast_one, Int.one_mul]

theorem repeated_ok {own : Int} : ∀ {count : Nat}, InRange (count * own) →
    repeated (.ok own) count 0 = .ok (count * own)
  | 0, _ => by simp [repeated]
  | _ + 1, h => (repeated_succ (repeated_ok h.of_succ)).trans (checked_of_inRange h)

theorem repeated_overflow {own : Int} : ∀ {count : Nat}, ¬ InRange (count * own) →
    repeated (.ok own) count 0 = .error .overflow
  | 0, h => absurd (by simp [InRange]) h
  | count + 1, h => by
    by_cases hbefore : InRange (count * own)
    · exact (repeated_succ (repeated_ok hbefore)).trans (checked_of_not h)
    · rw [repeated, repeated_overflow hbefore]
      rfl

theorem repeated_error {e : Error} (total : Int) : ∀ {count : Nat}, 0 < count →
    repeated (.error e) count total = .error e
  | 1, _ => rfl
  | count + 2, _ => by
    rw [repeated, repeated_error total (Nat.succ_pos count)]
    rfl

/-- **A count in range is the product; any other is an error.** -/
theorem repeated_product (count : Nat) (lengths : List Int) :
    (Fits count lengths → repeated (productFrom 1 lengths) count 0 = .ok (count * lengths.prod)) ∧
      (¬ Fits count lengths → repeated (productFrom 1 lengths) count 0 = .error .overflow) := by
  cases count with
  | zero => exact ⟨fun _ => by simp [repeated], fun h => absurd (fun h => absurd h (Nat.lt_irrefl 0)) h⟩
  | succ count =>
    by_cases hproducts : ∀ n, InRange (lengths.take n).prod
    · have hproduct : productFrom 1 lengths = .ok lengths.prod := by
        simpa using productFrom_ok 1 (by simpa using hproducts)
      rw [hproduct]
      exact ⟨fun h => repeated_ok (h (Nat.succ_pos _)).2,
        fun h => repeated_overflow fun htotal => h fun _ => ⟨hproducts, htotal⟩⟩
    · have hone : InRange 1 := by simp [InRange]
      have hproduct : productFrom 1 lengths = .error .overflow :=
        productFrom_overflow hone (by simpa using hproducts)
      rw [hproduct]
      exact ⟨fun h => absurd (h (Nat.succ_pos _)).1 hproducts,
        fun _ => repeated_error 0 (Nat.succ_pos _)⟩

/-! ## The cost of a tree -/

section
variable {path : Path} {op : Operator} {lengths : List Int} {p : Payload}

/-- What a node adds that takes one operation for each element, or none. -/
theorem ownFlops_repeated (hop : op.work ≤ 1) (total : Int) :
    (ownFlops path op (some (Shape.ofInts lengths)) >>= fun own => match own with
      | some own => checked (total + own)
      | none => return total) = repeated (productFrom 1 lengths) op.work total := by
  unfold ownFlops
  cases harith : op.arithmetic? with
  | none =>
    rw [Operator.work_eq_zero.2 harith]
    rfl
  | some o =>
    have hwork : op.work = 1 := by
      have hne : op.work ≠ 0 := fun h => by
        rw [Operator.work_eq_zero.1 h] at harith
        cases harith
      omega
    rw [hwork, Option.bind_some, Shape.ints?_ofInts]
    show (some <$> productFrom 1 lengths >>= _) = _
    cases productFrom 1 lengths <;> rfl

theorem flopsFrom_single (hop : op.work ≤ 1) (total : Int) (e : Expr) :
    flopsFrom path total (.node op (some (Shape.ofInts lengths)) p [e]) =
      flopsFrom (path ++ [0]) total e >>= repeated (productFrom 1 lengths) op.work := by
  rw [flopsFrom, flopsFromAll]
  cases flopsFrom (path ++ [0]) total e with
  | error _ => rfl
  | ok total => exact ownFlops_repeated hop total

theorem flopsFrom_pair (hop : op.work ≤ 1) (total : Int) (l r : Expr) :
    flopsFrom path total (.node op (some (Shape.ofInts lengths)) p [l, r]) =
      flopsFrom (path ++ [0]) total l >>= fun total => flopsFrom (path ++ [1]) total r >>=
        repeated (productFrom 1 lengths) op.work := by
  rw [flopsFrom, flopsFromAll]
  cases flopsFrom (path ++ [0]) total l with
  | error _ => rfl
  | ok total =>
    show (flopsFromAll path 1 total [r] >>= _) = _
    rw [flopsFromAll]
    show _ = flopsFrom (path ++ [1]) total r >>= _
    cases flopsFrom (path ++ [1]) total r with
    | error _ => rfl
    | ok total => exact ownFlops_repeated hop total

end

mutual

/-- What takes no operations costs nothing, whatever the shapes. -/
theorem flopsFrom_idle : ∀ {e : Expr}, e.work = 0 → ∀ (path : Path) (total : Int),
    flopsFrom path total e = .ok total
  | .node op s p es, h, path, total => by
    rw [Expr.work_node, Nat.add_eq_zero_iff] at h
    rw [flopsFrom, flopsFromAll_idle h.2, ownFlops, Operator.work_eq_zero.1 h.1]
    rfl

theorem flopsFromAll_idle : ∀ {es : List Expr}, (es.map Expr.work).sum = 0 →
    ∀ (path : Path) (index : Nat) (total : Int), flopsFromAll path index total es = .ok total
  | [], _, _, _, _ => rfl
  | e :: es, h, path, index, total => by
    rw [List.map_cons, List.sum_cons, Nat.add_eq_zero_iff] at h
    rw [flopsFromAll, flopsFrom_idle h.1]
    exact flopsFromAll_idle h.2 path (index + 1) total

end

end Cost

end PsiCalculus
