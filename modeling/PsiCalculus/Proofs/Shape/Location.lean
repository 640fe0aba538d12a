import PsiCalculus.Proofs.Shape.Hoisting
import PsiCalculus.Proofs.Tensor.Axes
import PsiCalculus.Proofs.Visits

/-!
# Where shape inference fails

The error of shape inference is the one of the first node, operands first, that has no shape: guards
that are lifted and reductions that are left out do not move the nodes of the tree that is traversed,
and the constants of earlier nodes have no influence on later ones.

* `Infer.PassesAll t n e`: every part of the tree `e` has a shape. `Infer.FailsAt t n e error path E`:
  the part at `path` has none, for the reason `E` at its root, and every part that is visited before it
  (`Path.precedes`) has one. One of the two holds of each tree (`Judged.passes_all`,
  `Judged.fails_at`).
* `Expr.axes`: a bound on the axes of all nodes, and by `Judged.constants_le` on the constants that are
  entered.
* `Context.inferShapes_locates`: errors point to the node that they are about.
-/

namespace PsiCalculus

open SymbolTable

/-! ## Places in a tree -/

/-- Errors at different places differ. -/
theorem Error.AtRoot.located_inj {e e' : Error} {path path' : Path} (he : e.AtRoot) (he' : e'.AtRoot)
    (h : e.located path = e'.located path') : e = e' ∧ path = path' := by
  cases he <;> cases he' <;> simp [Error.located] at h ⊢
  · exact h.symm
  · exact h.symm

theorem Error.AtRoot.located_ne_exhausted {e : Error} {path : Path} {name : String} (he : e.AtRoot) :
    e.located path ≠ .exhausted name := by
  cases he <;> simp [Error.located]

namespace Infer

variable {t : SymbolTable} {m n : Nat} {e : Expr} {v : Verdict Expr}

/-! ## Parts that have shapes -/

/-- The tree has a shape, with at most `n` constants. -/
def Passes (t : SymbolTable) (n : Nat) (e : Expr) : Prop :=
  ∃ ds e', Judged t e ⟨ds, .ok e'⟩ ∧ constantsOf ds ≤ n

/-- Every part of the tree has a shape. -/
def PassesAll (t : SymbolTable) (n : Nat) (e : Expr) : Prop :=
  ∀ path sub, e.select path = .ok sub → Passes t n sub

theorem Judged.passes {e' : Expr} (h : Judged t e v) (hv : v.result = .ok e') :
    Passes t (constantsOf v.deferred) e := by
  obtain ⟨ds, result⟩ := v
  cases hv
  exact ⟨ds, e', h, Nat.le_refl _⟩

theorem PassesAll.mono (h : PassesAll t m e) (hle : m ≤ n) : PassesAll t n e := by
  intro path sub hsub
  obtain ⟨ds, e', hj, hds⟩ := h path sub hsub
  exact ⟨ds, e', hj, Nat.le_trans hds hle⟩

theorem PassesAll.node (h : Passes t n e) (hall : ∀ child ∈ e.children, PassesAll t n child) :
    PassesAll t n e := by
  intro path sub hsub
  cases path with
  | nil =>
    cases hsub
    exact h
  | cons i rest =>
    obtain ⟨child, hchild, hsub⟩ := Expr.select_cons.1 hsub
    exact hall child (List.mem_of_getElem? hchild) rest sub hsub

theorem PassesAll.single {op : Operator} {sh : Option Shape} (h : PassesAll t m e) (hle : m ≤ n) :
    ∀ child ∈ (Expr.unary op sh e).children, PassesAll t n child := by
  intro child hchild
  rw [List.mem_singleton.1 hchild]
  exact h.mono hle

theorem PassesAll.pair {op : Operator} {sh : Option Shape} {l r : Expr} {k : Nat}
    (hl : PassesAll t m l) (hr : PassesAll t k r) (hle : m + k ≤ n) :
    ∀ child ∈ (Expr.binary op sh l r).children, PassesAll t n child := by
  intro child hchild
  rcases List.mem_pair.1 hchild with rfl | rfl
  · exact hl.mono (by omega)
  · exact hr.mono (by omega)

theorem Judged.passes_all (h : Judged t e v) :
    ∀ {e'}, v.result = .ok e' → PassesAll t (constantsOf v.deferred) e := by
  induction h with
  | leaf hs hv =>
    intro e' he'
    exact .node ((Judged.leaf hs hv).passes he') fun child hchild => (nomatch hchild)
  | unary_fails | left_fails | right_fails => intro e' he'; cases he'
  | scalar hj hs ih =>
    intro e' he'
    exact .node ((Judged.scalar hj hs).passes he') ((ih rfl).single (Nat.le_refl _))
  | unary hop hj hs hr hv ih =>
    intro e' he'
    exact .node ((Judged.unary hop hj hs hr hv).passes he') ((ih rfl).single (by simp))
  | binary hop hl hr ha hb hv ihl ihr =>
    intro e' he'
    exact .node ((Judged.binary hop hl hr ha hb hv).passes he') ((ihl rfl).pair (ihr rfl) (by simp))

/-! ## The part that has none -/

/-- The error of the tree is the error `E` of the part at `path`, and all that is visited before that
part has shapes. -/
structure FailsAt (t : SymbolTable) (n : Nat) (e : Expr) (error : Error) (path : Path) (E : Error) :
    Prop where
  located : error = E.located path
  root : E.AtRoot
  fails : ∃ sub ds, e.select path = .ok sub ∧ Judged t sub ⟨ds, .error E⟩ ∧ constantsOf ds ≤ n
  passes : ∀ q sub, q.precedes path = true → e.select q = .ok sub → Passes t n sub

/-- A node over operands that have shapes fails by itself. -/
theorem FailsAt.here {error : Error} (h : Judged t e v) (hv : v.result = .error error)
    (hroot : error.AtRoot) (hall : ∀ child ∈ e.children, PassesAll t (constantsOf v.deferred) child) :
    FailsAt t (constantsOf v.deferred) e error [] error := by
  obtain ⟨ds, result⟩ := v
  cases hv
  refine ⟨error.located_nil.symm, hroot, ⟨e, ds, rfl, h, Nat.le_refl _⟩, fun q sub hq hsub => ?_⟩
  cases q with
  | nil => cases hq
  | cons i rest =>
    obtain ⟨child, hchild, hsub⟩ := Expr.select_cons.1 hsub
    exact hall child (List.mem_of_getElem? hchild) rest sub hsub

/-- A node fails for an operand that fails, if the operands before it have shapes. -/
theorem FailsAt.below {error E : Error} {path : Path} {i : Nat} {child : Expr}
    (h : FailsAt t m child error path E) (hle : m ≤ n) (hchild : e.children[i]? = some child)
    (hall : ∀ j earlier, j < i → e.children[j]? = some earlier → PassesAll t n earlier) :
    FailsAt t n e (error.located [i]) (i :: path) E := by
  obtain ⟨sub, ds, hsub, hj, hds⟩ := h.fails
  refine ⟨by rw [h.located, Error.located_located]; rfl, h.root,
    ⟨sub, ds, Expr.select_cons.2 ⟨child, hchild, hsub⟩, hj, Nat.le_trans hds hle⟩, ?_⟩
  intro q sub' hq hsub'
  cases q with
  | nil => cases hq
  | cons j rest =>
    obtain ⟨child', hchild', hsub'⟩ := Expr.select_cons.1 hsub'
    simp only [Path.precedes, Bool.or_eq_true, decide_eq_true_eq, Bool.and_eq_true, beq_iff_eq] at hq
    rcases hq with hlt | ⟨rfl, hq⟩
    · exact hall j child' hlt hchild' rest sub' hsub'
    · cases hchild.symm.trans hchild'
      obtain ⟨ds', e', hj', hds'⟩ := h.passes rest sub' hq hsub'
      exact ⟨ds', e', hj', Nat.le_trans hds' hle⟩

/-- **The error is the one of the first node without a shape.** -/
theorem Judged.fails_at (h : Judged t e v) : ∀ {error}, v.result = .error error →
    ∃ path E, FailsAt t (constantsOf v.deferred) e error path E := by
  induction h with
  | leaf hs hv =>
    intro error herror
    have hroot := hv.error error (Traversal.map_error.1 herror)
    exact ⟨_, _, .here (.leaf hs hv) herror hroot fun child hchild => (nomatch hchild)⟩
  | scalar => intro error herror; cases herror
  | unary_fails hop hj ih =>
    intro error herror
    cases herror
    obtain ⟨path, E, hE⟩ := ih rfl
    exact ⟨_, _, hE.below (i := 0) (Nat.le_refl _) rfl fun j _ hj => (nomatch hj)⟩
  | unary hop hj hs hr hv ih =>
    intro error herror
    have hroot := hv.error error (Traversal.map_error.1 herror)
    exact ⟨_, _, .here (.unary hop hj hs hr hv) herror hroot ((hj.passes_all rfl).single (by simp))⟩
  | left_fails hop hl ih =>
    intro error herror
    cases herror
    obtain ⟨path, E, hE⟩ := ih rfl
    exact ⟨_, _, hE.below (i := 0) (Nat.le_refl _) rfl fun j _ hj => (nomatch hj)⟩
  | right_fails hop hl hr ihl ihr =>
    intro error herror
    cases herror
    obtain ⟨path, E, hE⟩ := ihr rfl
    refine ⟨_, _, hE.below (i := 1) (by simp) rfl fun j earlier hj hearlier => ?_⟩
    obtain rfl : j = 0 := by omega
    cases hearlier
    exact (hl.passes_all rfl).mono (by simp)
  | binary hop hl hr ha hb hv ihl ihr =>
    intro error herror
    have hroot := hv.error error (Traversal.map_error.1 herror)
    exact ⟨_, _, .here (.binary hop hl hr ha hb hv) herror hroot
      ((hl.passes_all rfl).pair (hr.passes_all rfl) (by simp))⟩

end Infer

/-! ## Constants -/

namespace Expr

/-- The axes of the array that a leaf names. -/
def ownAxes (t : SymbolTable) : Payload → Nat
  | .name name => (((t.get? name).bind Symbol.shape).getD []).length
  | _ => 0

mutual

/-- The axes of the leaves of a tree, and one for each node. -/
def axes (t : SymbolTable) : Expr → Nat
  | .node _ _ payload children => 1 + ownAxes t payload + axesAll t children
termination_by structural e => e

/-- The axes of the leaves of several trees, and one for each node. -/
def axesAll (t : SymbolTable) : List Expr → Nat
  | [] => 0
  | c :: cs => c.axes t + axesAll t cs
termination_by structural cs => cs

end

theorem axes_unary (t : SymbolTable) (op : Operator) (shape : Option Shape) (e : Expr) :
    (unary op shape e).axes t = 1 + e.axes t := rfl

theorem axes_binary (t : SymbolTable) (op : Operator) (shape : Option Shape) (l r : Expr) :
    (binary op shape l r).axes t = 1 + l.axes t + r.axes t := by
  simp [binary, axes, axesAll, ownAxes, Nat.add_assoc]

end Expr

theorem UnaryLaw.length_le {op : Operator} {s shape : Shape} (h : UnaryLaw op s shape) :
    shape.length ≤ 1 + s.length := by
  cases h <;> simp
  omega

theorem BinaryLaw.length_le {values : Option Shape} {op : Operator} {l r shape : Shape}
    {checks : List Check} (h : BinaryLaw values op l r shape checks) :
    shape.length ≤ l.length + r.length := by
  cases h with
  | permute _ _ hlen hplaced =>
    exact Nat.le_add_left_of_le (Nat.le_of_eq (Shape.gathers_of_place? hlen hplaced).2.1)
  | _ => simp <;> omega

namespace Infer

variable {t : SymbolTable} {e : Expr} {v : Verdict Expr}

/-- No node has more axes than that. -/
theorem Judged.rank_le (h : Judged t e v) : ∀ {e' s}, v.result = .ok e' → e'.shape = some s →
    s.length ≤ e.axes t := by
  induction h with
  | leaf hs hv =>
    intro e' s he' hshape
    obtain ⟨shape, hresult, rfl⟩ := Traversal.map_ok.1 he'
    cases hshape
    rw [Expr.array, Expr.axes, Expr.ownAxes, hs, Option.bind_some, (hv.ok _ hresult).1,
      Option.getD_some]
    omega
  | unary_fails | left_fails | right_fails => intro e' s he'; cases he'
  | scalar _ _ ih =>
    intro e' s he' hshape
    have := ih he' hshape
    rw [Expr.axes_unary]
    omega
  | unary _ _ hs _ hv ih =>
    intro e' s he' hshape
    obtain ⟨shape, hresult, rfl⟩ := Traversal.map_ok.1 he'
    cases hshape
    have hlaw := (hv.ok _ hresult).1.length_le
    have := ih rfl hs
    rw [Expr.axes_unary]
    omega
  | binary _ _ _ ha hb hv ihl ihr =>
    intro e' s he' hshape
    obtain ⟨shape, hresult, rfl⟩ := Traversal.map_ok.1 he'
    cases hshape
    obtain ⟨checks, hlaw, -⟩ := hv.ok _ hresult
    have := hlaw.length_le
    have := ihl rfl ha
    have := ihr rfl hb
    rw [Expr.axes_binary]
    omega

/-- At most two constants are entered for an axis of an operand. -/
theorem Judged.constants_le (h : Judged t e v) :
    constantsOf v.deferred ≤ 2 * (e.axes t * e.axes t) := by
  have hmono : ∀ {m n : Nat}, m ≤ n → m * m ≤ n * n := fun hle => Nat.mul_le_mul hle hle
  have hsquare : ∀ m n : Nat, m * m + n * n + n ≤ (1 + m + n) * (1 + m + n) := by
    intro m n
    simp only [Nat.add_mul, Nat.mul_add]
    omega
  induction h with
  | leaf _ hv => exact Nat.le_trans hv.constants_le (Nat.zero_le _)
  | unary_fails _ _ ih | scalar _ _ ih =>
    rw [Expr.axes_unary]
    exact Nat.le_trans ih (Nat.mul_le_mul_left 2 (hmono (Nat.le_add_left _ _)))
  | unary _ _ _ _ hv ih =>
    rw [Expr.axes_unary, constantsOf_append, Nat.le_zero.1 hv.constants_le, Nat.add_zero]
    exact Nat.le_trans ih (Nat.mul_le_mul_left 2 (hmono (Nat.le_add_left _ _)))
  | left_fails _ _ ih =>
    rw [Expr.axes_binary]
    exact Nat.le_trans ih (Nat.mul_le_mul_left 2 (hmono (by omega)))
  | @right_fails _ l r _ _ _ _ _ _ _ ihl ihr =>
    have := hsquare (l.axes t) (r.axes t)
    rw [Expr.axes_binary, constantsOf_append]
    simp only at ihl ihr
    omega
  | @binary _ l r _ _ _ _ _ _ _ _ _ hr _ hb hv ihl ihr =>
    have := hsquare (l.axes t) (r.axes t)
    have hown := hv.constants_le
    have hrank := hr.rank_le rfl hb
    rw [Expr.axes_binary, constantsOf_append, constantsOf_append]
    simp only at ihl ihr
    omega

end Infer

/-! ## Contexts -/

namespace Context

variable {c : Context} {n : Nat}

theorem inferShapes_passes (hc : c.table.Counted) (hn : c.table.Takes n)
    (h : Infer.Passes c.table n c.tree) : ∃ s, c.inferShapes = .ok s := by
  obtain ⟨ds, e', hj, hds⟩ := h
  have hfollows := hj.ends.follows [] c.table (.refl _)
  rw [← inferShapes_eq] at hfollows
  obtain ⟨s, hs, -⟩ := hfollows.exists_ok hc (hn.mono hds)
  exact ⟨s, hs⟩

theorem inferShapes_fails {ds : List Check} {error : Error} (hc : c.table.Counted)
    (hn : c.table.Takes n) (h : Infer.Judged c.table c.tree ⟨ds, .error error⟩)
    (hds : constantsOf ds ≤ n) : c.inferShapes = .error error := by
  have hfollows := h.ends.follows [] c.table (.refl _)
  rw [← inferShapes_eq] at hfollows
  rw [hfollows.eq_error hc (hn.mono hds), Error.located_nil]

/-- **Errors of shape inference point to the node they are about.** The part at the path of an error
fails with the same error at its root, and all parts that are visited before it have shapes. If no part
fails at its root then the context is shaped, unless there are no names left for the constants. -/
theorem inferShapes_locates {source : String} (hc : Context.parse source = .ok c) :
    (∀ error path, error.AtRoot → c.inferShapes = .error (error.located path) →
      ∃ sub, c.select path = .ok sub ∧ sub.inferShapes = .error error ∧
        ∀ q earlier, q.precedes path = true → c.select q = .ok earlier →
          ∃ s, earlier.inferShapes = .ok s) ∧
    ((∀ path sub error, c.select path = .ok sub → error.AtRoot → sub.inferShapes ≠ .error error) →
      Attains (c.table.size + 2 * (c.tree.axes c.table * c.tree.axes c.table)) (fun _ => True)
        c.inferShapes) := by
  have hcounted := Context.parse_counted hc
  obtain ⟨v, hv, hfollows⟩ := Context.inferShapes_judged (Context.parse_raw hc)
  have hlocate : ∀ error, v.result = .error error → c.table.Takes (constantsOf v.deferred) →
      ∃ path E sub, error = E.located path ∧ E.AtRoot ∧ c.select path = .ok sub ∧
        sub.inferShapes = .error E ∧ ∀ q earlier, q.precedes path = true → c.select q = .ok earlier →
          ∃ s, earlier.inferShapes = .ok s := by
    intro error herror htakes
    obtain ⟨path, E, hE⟩ := hv.fails_at herror
    obtain ⟨sub, ds, hsub, hj, hds⟩ := hE.fails
    refine ⟨path, E, ⟨sub, c.table⟩, hE.located, hE.root, select_ok.2 ⟨sub, hsub, rfl⟩,
      inferShapes_fails hcounted htakes hj hds, fun q earlier hq hearlier => ?_⟩
    obtain ⟨part, hpart, rfl⟩ := select_ok.1 hearlier
    exact inferShapes_passes hcounted htakes (hE.passes q part hq hpart)
  constructor
  · intro error path hroot herror
    rw [herror] at hfollows
    generalize hlocated : error.located path = outcome at hfollows
    cases hfollows with
    | @error error' htakes hresult =>
      obtain ⟨path', E, sub, rfl, hE, hsub, hfails, hearlier⟩ := hlocate _ hresult (htakes hcounted)
      rw [Error.located_nil] at hlocated
      obtain ⟨rfl, rfl⟩ := hroot.located_inj hE hlocated
      exact ⟨sub, hsub, hfails, hearlier⟩
    | exhausted => exact absurd hlocated hroot.located_ne_exhausted
  · intro hnone
    generalize c.inferShapes = outcome at hfollows
    cases hfollows with
    | ok => exact .ok trivial
    | error htakes hresult =>
      obtain ⟨path, E, sub, -, hE, hsub, hfails, -⟩ := hlocate _ hresult (htakes hcounted)
      exact absurd hfails (hnone path sub E hsub hE)
    | exhausted hfull =>
      have hconstants := hv.constants_le
      have hwords := Takes.lt_of_not (hfull hcounted)
      exact .exhausted (by omega)

/-- A sum of matrices that do not match, below a transpose below an index. -/
theorem inferShapes_locates_sum : ∃ c sub, Context.parse "<0> psi (tran (A^<3 4> + B^<4 4>))" = .ok c ∧
    c.inferShapes = .error (.shape [1, 0] (.axisMismatch (.arith .plus) 0 3 4)) ∧
    c.select [1, 0] = .ok sub ∧
    sub.inferShapes = .error (.shape [] (.axisMismatch (.arith .plus) 0 3 4)) ∧
    ∀ q ∈ [[0], [1, 0, 0], [1, 0, 1]], ∀ earlier, c.select q = .ok earlier →
      ∃ s, earlier.inferShapes = .ok s := by
  have hrun : (do
      let c ← Context.parse "<0> psi (tran (A^<3 4> + B^<4 4>))"
      return decide (c.inferShapes =
        Except.error (Error.shape [1, 0] (.axisMismatch (.arith .plus) 0 3 4)))) = .ok true := by
    decide +kernel
  obtain ⟨c, hc, hrun⟩ := except_bind_ok.1 hrun
  simp only [pure, Except.pure, Except.ok.injEq, decide_eq_true_eq] at hrun
  obtain ⟨sub, hsub, hfails, hearlier⟩ := (inferShapes_locates hc).1 _ [1, 0] .shape hrun
  exact ⟨c, sub, hc, hrun, hsub, hfails, fun q hq earlier => hearlier q earlier (by
    revert q
    decide)⟩

end Context

end PsiCalculus
