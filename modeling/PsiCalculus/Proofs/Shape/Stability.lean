import PsiCalculus.Proofs.Shape.Hoisting

/-!
# Shape inference over its own result

A shaped tree is shaped once more. Each node is given the shape that it has, and defers the same checks
as before, over the table with the constants of the first time (`Infer.Judged.again`). The guard has its
shapes already, and nothing is deferred in it (`Guards.again`). The comparisons of the second time join
those of the first under one condition (`Infer.condition_follows`).

* `Context.inferShapes_stable`: a shaped context without a condition is shaped as itself, one with a
  condition keeps its consequent and gets a guard of the same value.
-/

namespace PsiCalculus

open SymbolTable

/-! ## Consequents -/

/-- The shape that a node has already is the one that it is given. -/
theorem Verdict.result_of_some {v : Verdict Shape} {shape : Shape} (h : v.result = .ok shape)
    (existing : Shape) (heq : some shape = some existing) : v.result = .ok existing := by
  rw [h, Option.some.inj heq]

/-- **The verdict on a shaped tree is the one on the tree that it was before.** -/
theorem Infer.Judged.again {t : SymbolTable} {e : Expr} {v : Verdict Expr} (h : Judged t e v) :
    ∀ {e'}, v.result = .ok e' → Ends t e' v := by
  induction h with
  | leaf _ hv =>
    intro e' he'
    obtain ⟨shape, hresult, rfl⟩ := Traversal.map_ok.1 he'
    exact .leaf hv.runs (Verdict.result_of_some hresult)
  | unary_fails | left_fails | right_fails => intro e' he'; cases he'
  | scalar _ _ ih =>
    intro e' he'
    cases he'
    exact ih rfl
  | unary hop _ _ hs hv ih =>
    intro e' he'
    obtain ⟨shape, hresult, rfl⟩ := Traversal.map_ok.1 he'
    exact .unary (Operator.arity_of_leads hop) (ih rfl) hs hv.runs (Verdict.result_of_some hresult)
  | binary hop _ _ _ _ hv ihl ihr =>
    intro e' he'
    obtain ⟨shape, hresult, rfl⟩ := Traversal.map_ok.1 he'
    exact .binary (Operator.arity_of_joins hop) (Operator.ne_condition_of_joins hop) (ihl rfl)
      (ihr rfl) hv.runs (Verdict.result_of_some hresult)

/-! ## Guards -/

theorem Stands.again {t : SymbolTable} {e : Expr} {x : Element} (h : Stands t e x) :
    Infer.Ends t e ⟨[], .ok e⟩ ∧ e.shape = some [] := by
  have hleaf : ∀ {name : String} {values : Option Shape},
      t.get? name = some (.array (some []) values) →
      Infer.Ends t (.array name (some [])) ⟨[], .ok (.array name (some []))⟩ := by
    intro name values hs
    have hruns : Infer.Runs t (Infer.nodeShape (.array name none)) ⟨[], .ok []⟩ :=
      .of_run (Infer.nodeShape_leaf_run hs)
    exact .leaf hruns (Verdict.result_of_some rfl)
  cases h with
  | symbolic hs => exact ⟨hleaf hs, rfl⟩
  | constant _ hs => exact ⟨hleaf hs, rfl⟩

/-- A comparison or a conjunction of scalars is a scalar. -/
theorem Infer.Ends.scalars {t : SymbolTable} {op : Operator} {l r : Expr}
    (hop : (∃ o, op = .compare o) ∨ ∃ o, op = .logic o) (hl : Ends t l ⟨[], .ok l⟩ ∧ l.shape = some [])
    (hr : Ends t r ⟨[], .ok r⟩ ∧ r.shape = some []) :
    Ends t (.binary op (some []) l r) ⟨[], .ok (.binary op (some []) l r)⟩ := by
  have hruns : Runs t (nodeShape (.binary op none l r)) ⟨[], .ok []⟩ := by
    have hshape : nodeShape (.binary op none l r) = extendedShape (.binary op none l r) := by
      rcases hop with ⟨o, rfl⟩ | ⟨o, rfl⟩ <;> rfl
    refine .of_run fun p _ => ?_
    rw [hshape, extendedShape, left_eq hl.2, right_eq hr.2]
    rfl
  have harity : op.arity = .fixed 2 := by
    rcases hop with ⟨o, rfl⟩ | ⟨o, rfl⟩ <;> rfl
  have hne : op ≠ .condition := by
    rcases hop with ⟨o, rfl⟩ | ⟨o, rfl⟩ <;> simp
  exact .binary harity hne hl.1 hr.1 hruns (Verdict.result_of_some rfl)

/-- **A guard is shaped as it is.** -/
theorem Guards.again {t : SymbolTable} {g : Expr} {cs : List Check} (h : Guards t g cs) :
    Infer.Ends t g ⟨[], .ok g⟩ ∧ g.shape = some [] := by
  induction h with
  | one hd =>
    cases hd with
    | compare hl hr => exact ⟨.scalars (.inl ⟨_, rfl⟩) hl.again hr.again, rfl⟩
  | and _ _ ihl ihr => exact ⟨.scalars (.inr ⟨_, rfl⟩) ihl ihr, rfl⟩

theorem Guards.ne_nil {t : SymbolTable} {g : Expr} {cs : List Check} (h : Guards t g cs) : cs ≠ [] := by
  induction h with
  | one => simp
  | and _ _ ihl _ => simp [ihl]

theorem Wrapped.eq_of_nil {t : SymbolTable} {e tree : Expr} (h : Wrapped t e tree []) : tree = e := by
  cases h with
  | bare => rfl
  | guarded hg => exact absurd rfl hg.ne_nil

/-! ## Conditions -/

namespace Infer

variable {t : SymbolTable} {g e tree : Expr} {cs ds : List Check}

/-- A condition takes over the guard of its consequent. -/
theorem shapeNode_condition (hop : e.op ≠ .condition) (h : Wrapped t e tree ds) (sh : Option Shape) :
    shapeNode ⟨.binary .condition sh g tree, t⟩ =
      .ok ⟨Condition.wrap e (g :: ((Condition.split? tree).map Prod.fst).toList), t⟩ := by
  have hh : Condition.hoist (.binary .condition sh g tree) =
      (.binary .condition sh g e, ((Condition.split? tree).map Prod.fst).toList) := by
    cases h with
    | bare => simp [Condition.hoist, Expr.binary, Wrapped.split?_bare hop]
    | guarded => rfl
  unfold shapeNode
  rw [hh]
  rfl

/-- **The guards of the two times are joined.** -/
theorem condition_follows (hg : Guards t g cs) (he : Ends t e ⟨ds, .ok e⟩) (sh : Option Shape)
    (path : Path) : Follows t (constantsOf ds) (.ok e) (fun e c => GrowsArrays t c.table ∧
        ∃ g', c.tree = .binary .condition e.shape g' e ∧ Guards c.table g' (cs ++ ds))
      path (Traversal.postorderFrom shapeNode path t (.binary .condition sh g e)) := by
  rw [Traversal.postorderFrom_binary rfl, ← Nat.zero_add (constantsOf ds)]
  refine (hg.again.1.follows (path ++ [0]) t (.refl t)).anywhere.bind fun c₁ hc₁ =>
    ⟨c₁.table, hc₁.grows.counted, hc₁.size, ?_⟩
  rw [hc₁.unchanged rfl, hc₁.wrapped.eq_of_nil]
  refine (he.follows (path ++ [1]) t (.refl t)).anywhere.bind (n := 0) fun c₂ hc₂ =>
    ⟨c₂.table, hc₂.grows.counted, hc₂.size, ?_⟩
  rw [shapeNode_condition (he.op_ne rfl) hc₂.wrapped]
  refine .ok (fun _ => .zero _) rfl ⟨hc₂.grows, _, rfl, ?_⟩
  exact (hc₂.wrapped.guards (he.op_ne rfl)).foldl (hg.mono hc₂.grows.grows.entries)

end Infer

/-- Guards for the same checks, which may be repeated, have the same value. -/
theorem Guards.test_eq {t t' : SymbolTable} {g g' : Expr} {cs ds : List Check} (hg : Guards t g cs)
    (hg' : Guards t' g' ds) (hmem : ∀ c, c ∈ ds ↔ c ∈ cs) {ρ : Env} (hb : ∀ c ∈ cs, (c.test ρ).isSome) :
    Env.test t' ρ g' = Env.test t ρ g := by
  have hb' : ∀ c ∈ ds, (c.test ρ).isSome := fun c hc => hb c ((hmem c).1 hc)
  obtain ⟨b, htest⟩ := Option.isSome_iff_exists.1 (hg.test_isSome hb)
  obtain ⟨b', htest'⟩ := Option.isSome_iff_exists.1 (hg'.test_isSome hb')
  have hiff : Env.test t' ρ g' = some true ↔ Env.test t ρ g = some true := by
    rw [hg'.test_iff, hg.test_iff]
    simp only [hmem]
  rw [htest, htest'] at hiff ⊢
  rw [Option.some.injEq, Bool.eq_iff_iff]
  simpa using hiff

/-- **Shape inference is stable under repetition.** A shaped context is shaped again, unless there are
no names left for the constants of its guard: without a condition it is the same context, and with one
the consequent is the same and the guard has the same value under every valuation. -/
theorem Context.inferShapes_stable {source : String} {c s : Context}
    (hc : Context.parse source = .ok c) (hs : c.inferShapes = .ok s) :
    Attains (2 * s.table.size) (fun s' => s'.tree.shape = s.tree.shape ∧
      (s.tree.op ≠ .condition → s' = s) ∧
      (s.tree.op = .condition → ∃ guard guard',
        s.tree = .binary .condition s.tree.shape guard s.consequent ∧
        s'.tree = .binary .condition s.tree.shape guard' s.consequent ∧
        ∀ σ, (Env.test s.table (.ofValuation σ) guard).isSome ∧
          Env.test s'.table (.ofValuation σ) guard' = Env.test s.table (.ofValuation σ) guard))
      s.inferShapes := by
  have hraw := Context.parse_raw hc
  obtain ⟨⟨ds, result⟩, hv, hfollows⟩ := Context.inferShapes_judged hraw
  rw [hs] at hfollows
  cases hfollows with
  | @ok e' _ _ hresult hcarries =>
    obtain rfl : result = .ok e' := hresult
    obtain ⟨cs, hinfers, hsubset, -⟩ := hv.infers rfl
    have hcounted : s.table.Counted := hcarries.grows.counted (Context.parse_counted hc)
    have hagain : Infer.Ends s.table e' ⟨ds, .ok e'⟩ :=
      (hv.again rfl).mono hcarries.grows.grows.entries
    have hbound : s.table.size + constantsOf ds ≤ 2 * s.table.size := by
      have := hcarries.size
      simp only at this
      omega
    have hop := hinfers.part.op_ne_condition
    have hwrapped := hcarries.wrapped
    obtain ⟨tree, table⟩ := s
    rw [inferShapes_eq]
    cases hwrapped with
    | bare =>
      refine (hagain.follows [] table (.refl table)).attains hcounted hbound fun s' hs' => ?_
      have heq : s' = ⟨tree, table⟩ := by
        obtain ⟨tree', table'⟩ := s'
        obtain rfl := hs'.unchanged rfl
        obtain rfl := hs'.wrapped.eq_of_nil
        rfl
      subst heq
      exact ⟨rfl, fun _ => rfl, fun hcondition => absurd hcondition hop⟩
    | @guarded guard _ hguard =>
      have hfollows := Infer.condition_follows hguard hagain e'.shape []
      refine hfollows.attains hcounted hbound fun s' hs' => ?_
      obtain ⟨-, guard', htree', hguard'⟩ := hs'
      refine ⟨by rw [htree']; rfl, fun hcondition => absurd rfl hcondition, fun _ => ?_⟩
      refine ⟨guard, guard', rfl, htree', fun σ => ?_⟩
      have hsome : ∀ d ∈ ds, (d.test (.ofValuation σ)).isSome := fun d hd =>
        (hinfers.check_dimension hraw.declared d (hsubset hd)).test_isSome σ
      exact ⟨hguard.test_isSome hsome, hguard.test_eq hguard' (by simp) hsome⟩

/-- The index into a sum of matrices with lengths that are not known: the second time a condition is
found at the root. -/
theorem Context.inferShapes_stable_row : ∃ c s s' guard guard',
    Context.parse "<0> psi (A^<n 3> + B^<m 3>)" = .ok c ∧ c.inferShapes = .ok s ∧
    s.inferShapes = .ok s' ∧ s.tree = .binary .condition s.tree.shape guard s.consequent ∧
    s'.tree = .binary .condition s.tree.shape guard' s.consequent ∧ guard' ≠ guard ∧
    ∀ σ, Env.test s'.table (.ofValuation σ) guard' = Env.test s.table (.ofValuation σ) guard := by
  have hrun : (do
      let c ← Context.parse "<0> psi (A^<n 3> + B^<m 3>)"
      let s ← c.inferShapes
      let s' ← s.inferShapes
      return (s.tree.op, decide (2 * s.table.size ≤ Text.maxWord), decide (s'.guard? = s.guard?))) =
      .ok (.condition, true, false) := by
    decide +kernel
  obtain ⟨c, hc, hrun⟩ := except_bind_ok.1 hrun
  obtain ⟨s, hs, hrun⟩ := except_bind_ok.1 hrun
  obtain ⟨s', hs', hrun⟩ := except_bind_ok.1 hrun
  simp only [pure, Except.pure, Except.ok.injEq, Prod.mk.injEq, decide_eq_true_eq,
    decide_eq_false_iff_not] at hrun
  obtain ⟨hop, hbound, hne⟩ := hrun
  obtain ⟨_, hs'', -, -, hguarded⟩ := (inferShapes_stable hc hs).exists_ok hbound
  obtain rfl := Except.ok.inj (hs'.symm.trans hs'')
  obtain ⟨guard, guard', htree, htree', htest⟩ := hguarded hop
  refine ⟨c, s, s', guard, guard', hc, hs, hs', htree, htree', fun heq => hne ?_, fun σ => (htest σ).2⟩
  rw [guard?, guard?, htree, htree', heq]

end PsiCalculus
