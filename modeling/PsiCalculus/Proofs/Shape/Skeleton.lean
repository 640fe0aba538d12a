import PsiCalculus.Proofs.Shape.Hoisting

/-!
# What shape inference leaves as it was

A shaped tree is the tree that was parsed, with a shape at every node, under one condition for all the
comparisons of its nodes.

* `Annotated e e'`: `e'` is the raw tree `e` with a shape at every node, and with reductions of scalars
  left out.
* `Expr.deferred t e`: the checks that the nodes of a shaped tree leave to run time, operands first.
  They can be read off the shapes of the operands (`Shape.checks`), and they are the ones that inference
  deferred (`Infer.Judged.deferred_eq`).
* `Context.inferShapes_gathers`: a parsed context that is shaped is annotated and guarded by these.
-/

namespace PsiCalculus

open SymbolTable

/-! ## Annotated trees -/

/-- A raw tree and the same tree with a shape at every node. A reduction stands unless its operand has
no axes; it is then the operand. -/
inductive Annotated : Expr → Expr → Prop
  | leaf {name : String} {shape : Shape} :
      Annotated (.array name none) (.array name (some shape))
  | unary {op : Operator} {e e' : Expr} {shape : Shape} : Annotated e e' →
      (∀ f, op = .reduce f → e'.shape ≠ some []) →
      Annotated (.unary op none e) (.unary op (some shape) e')
  | binary {op : Operator} {l r l' r' : Expr} {shape : Shape} : Annotated l l' → Annotated r r' →
      Annotated (.binary op none l r) (.binary op (some shape) l' r')
  | scalar {op : ArithOp} {e e' : Expr} : Annotated e e' → e'.shape = some [] →
      Annotated (.unary (.reduce op) none e) e'

theorem Infers.annotated {t : SymbolTable} {e e' : Expr} {cs : List Check} (h : Infers t e e' cs) :
    Annotated e e' := by
  induction h with
  | leaf => exact .leaf
  | unary _ hs hlaw ih =>
    refine .unary ih fun f hf => ?_
    subst hf
    cases hlaw with
    | reduce => simp [hs]
  | binary _ _ _ _ _ ihl ihr => exact .binary ihl ihr
  | scalar _ hs ih => exact .scalar ih hs

/-- No node of a guard is a condition. -/
theorem Guards.no_condition {t : SymbolTable} {g : Expr} {cs : List Check} (h : Guards t g cs) :
    .condition ∉ g.operators := by
  induction h with
  | one hd =>
    obtain @⟨op, l, r, x, y, hl, hr⟩ := hd
    cases hl <;> cases hr <;> simp [Expr.binary, Expr.array, Expr.operators, Expr.operatorsAll]
  | and _ _ ihl ihr =>
    simpa [Expr.binary, Expr.operators, Expr.operatorsAll] using ⟨ihl, ihr⟩

/-! ## Checks of a shaped tree -/

/-- The checks that an operator calls for, given the shapes of its operands and what is known of the
value of the left one. -/
def Shape.checks (values : Option Shape) (op : Operator) (l r : Shape) : List Check :=
  match op with
  | .assign | .arith _ => agreement l r
  | .psi => bounds (values.getD []) r
  | .inner _ _ => agreement l.getLast?.toList r.head?.toList
  | _ => []

theorem BinaryLaw.checks_eq {values : Option Shape} {op : Operator} {l r shape : Shape}
    {checks : List Check} (h : BinaryLaw values op l r shape checks) :
    checks = Shape.checks values op l r := by
  cases h <;> simp [Shape.checks, Shape.agreement]

/-- They ask whether lengths are equal or an index is below a length. -/
theorem Shape.op_of_mem_checks {values : Option Shape} {op : Operator} {l r : Shape} {c : Check}
    (h : c ∈ checks values op l r) : c.op = .equal ∨ c.op = .less := by
  have hzip : ∀ {o : CompareOp} {l r : Shape}, c ∈ List.zipWith (Check.mk o) l r → c.op = o := by
    intro o l r hc
    rw [← List.map_uncurry_zip_eq_zipWith] at hc
    obtain ⟨p, -, rfl⟩ := List.mem_map.1 hc
    rfl
  unfold checks at h
  split at h
  · exact .inl (hzip h)
  · exact .inl (hzip h)
  · exact .inr (hzip h)
  · exact .inl (hzip h)
  · cases h

namespace Expr

/-- The checks that a node over the operands leaves to run time. -/
def deferredAt (t : SymbolTable) (op : Operator) : List Expr → List Check
  | [l, r] =>
    (Shape.checks (t.valueOf l) op (l.shape.getD []) (r.shape.getD [])).filter (Check.waits op)
  | _ => []

mutual

/-- The checks that the nodes of a shaped tree leave to run time, operands first. -/
def deferred (t : SymbolTable) : Expr → List Check
  | .node op _ _ children => deferredAll t children ++ deferredAt t op children
termination_by structural e => e

/-- The checks that the nodes of several trees leave to run time. -/
def deferredAll (t : SymbolTable) : List Expr → List Check
  | [] => []
  | c :: cs => c.deferred t ++ deferredAll t cs
termination_by structural cs => cs

end

variable {t : SymbolTable}

theorem deferredAll_eq (es : List Expr) : deferredAll t es = es.flatMap (deferred t) := by
  induction es with
  | nil => rfl
  | cons e es ih => rw [deferredAll, List.flatMap_cons, ih]

theorem op_of_mem_deferred (e : Expr) : ∀ c ∈ e.deferred t, c.op = .equal ∨ c.op = .less := by
  induction e using Expr.induction_on_children with
  | node op shape payload children ih =>
    intro c hc
    rw [deferred, deferredAll_eq, List.mem_append, List.mem_flatMap] at hc
    rcases hc with ⟨child, hchild, hc⟩ | hc
    · exact ih child hchild c hc
    · unfold deferredAt at hc
      split at hc
      · exact Shape.op_of_mem_checks (List.mem_of_mem_filter hc)
      · cases hc

end Expr

namespace Infer

/-- **What inference defers is what the nodes leave to run time**, node by node. -/
theorem Judged.deferred_eq {t : SymbolTable} {e : Expr} {v : Verdict Expr} (h : Judged t e v) :
    ∀ {e'}, v.result = .ok e' → v.deferred = e'.deferred t := by
  induction h with
  | leaf _ hv =>
    intro e' he'
    obtain ⟨shape, hresult, rfl⟩ := Traversal.map_ok.1 he'
    exact (hv.ok shape hresult).2
  | unary_fails | left_fails | right_fails => intro e' he'; cases he'
  | scalar _ _ ih => exact ih
  | unary _ _ _ _ hv ih =>
    intro e' he'
    obtain ⟨shape, hresult, rfl⟩ := Traversal.map_ok.1 he'
    have hown := (hv.ok shape hresult).2
    simp only at hown ih ⊢
    rw [hown, ih rfl]
    simp [Expr.unary, Expr.deferred, Expr.deferredAll, Expr.deferredAt]
  | binary _ _ _ ha hb hv ihl ihr =>
    intro e' he'
    obtain ⟨shape, hresult, rfl⟩ := Traversal.map_ok.1 he'
    obtain ⟨checks, hlaw, hsplits⟩ := hv.ok shape hresult
    have hown := hsplits.deferred
    rw [hlaw.checks_eq] at hown
    simp only at hown ihl ihr ⊢
    rw [hown, ihl rfl, ihr rfl]
    simp [Expr.binary, Expr.deferred, Expr.deferredAll, Expr.deferredAt, ha, hb]

end Infer

/-- **Shape inference keeps the tree and gathers the comparisons at the root.** The consequent is the
parsed tree with its shapes, no condition is left below the root, and the leaves of the guard are, from
left to right, the comparisons that the nodes defer: each once, and each of two scalars. -/
theorem Context.inferShapes_gathers {source : String} {c s : Context}
    (hc : Context.parse source = .ok c) (hs : c.inferShapes = .ok s) :
    Annotated c.tree s.consequent ∧
    (∀ child ∈ s.tree.children, .condition ∉ child.operators) ∧
    (s.tree.op ≠ .condition → s.tree = s.consequent ∧ s.consequent.deferred c.table = []) ∧
    (s.tree.op = .condition → ∃ guard,
      s.tree = .binary .condition s.consequent.shape guard s.consequent ∧
      Guards s.table guard (s.consequent.deferred c.table)) ∧
    ∀ check ∈ s.consequent.deferred c.table, check.op = .equal ∨ check.op = .less := by
  obtain ⟨v, hv, hfollows⟩ := Context.inferShapes_judged (Context.parse_raw hc)
  rw [hs] at hfollows
  cases hfollows with
  | @ok e' _ _ hresult hcarries =>
    obtain ⟨cs, hinfers, -⟩ := hv.infers hresult
    have hpart := hinfers.part
    have hwrapped := hcarries.wrapped
    have hconsequent : s.consequent = e' := hwrapped.consequent hpart.op_ne_condition
    have hdeferred := hv.deferred_eq hresult
    rw [hconsequent, ← hdeferred]
    refine ⟨hinfers.annotated, ?_⟩
    suffices h : (∀ child ∈ s.tree.children, .condition ∉ child.operators) ∧
        (s.tree.op ≠ .condition → s.tree = e' ∧ v.deferred = []) ∧
        (s.tree.op = .condition → ∃ guard, s.tree = .binary .condition e'.shape guard e' ∧
          Guards s.table guard v.deferred) from
      ⟨h.1, h.2.1, h.2.2, hdeferred ▸ e'.op_of_mem_deferred⟩
    generalize s.tree = tree, v.deferred = ds at hwrapped
    cases hwrapped with
    | bare =>
      refine ⟨fun child hchild => (hpart.child hchild).no_condition, fun _ => ⟨rfl, rfl⟩, fun hop => ?_⟩
      exact absurd hop hpart.op_ne_condition
    | @guarded guard ds hguard =>
      refine ⟨fun child hchild => ?_, fun hop => absurd rfl hop, fun _ => ⟨guard, rfl, hguard⟩⟩
      rcases List.mem_pair.1 hchild with rfl | rfl
      · exact hguard.no_condition
      · exact hpart.no_condition

/-- A row of a scaled sum: the lengths are compared below the index, and the reduction of the scalar is
left out. -/
theorem Context.inferShapes_gathers_row : ∃ c s guard,
    Context.parse "<0> psi (A^<n 3> + B^<m 3>) * (+red s^<>)" = .ok c ∧ c.inferShapes = .ok s ∧
    Annotated c.tree s.consequent ∧ .condition ∉ guard.operators ∧
    s.tree = .binary .condition s.consequent.shape guard s.consequent ∧
    Guards s.table guard [⟨.equal, .named "n", .named "m"⟩, ⟨.less, .int 0, .named "n"⟩] := by
  have hrun : (do
      let c ← Context.parse "<0> psi (A^<n 3> + B^<m 3>) * (+red s^<>)"
      let s ← c.inferShapes
      return (s.tree.op, s.consequent.deferred c.table)) =
      .ok (.condition, [⟨.equal, .named "n", .named "m"⟩, ⟨.less, .int 0, .named "n"⟩]) := by
    decide +kernel
  obtain ⟨c, hc, hrun⟩ := except_bind_ok.1 hrun
  obtain ⟨s, hs, hrun⟩ := except_bind_ok.1 hrun
  simp only [pure, Except.pure, Except.ok.injEq, Prod.mk.injEq] at hrun
  obtain ⟨hannotated, hbelow, -, hguarded, -⟩ := inferShapes_gathers hc hs
  obtain ⟨guard, htree, hguard⟩ := hguarded hrun.1
  refine ⟨c, s, guard, hc, hs, hannotated, hbelow guard ?_, htree, hrun.2 ▸ hguard⟩
  rw [htree]
  exact .head _

end PsiCalculus
