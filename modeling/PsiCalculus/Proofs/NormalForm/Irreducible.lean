import PsiCalculus.Proofs.NormalForm.Step
import PsiCalculus.Proofs.Progress.Traversal

/-!
# Reduced trees are irreducible

Rewriting settles a node before it turns to the operands, and never comes back. That is enough: a
node that no rule is about is no psi, or it is one of an operand that no rule is named for. Such an
operand is no psi itself, so that whatever is done below it, its operator stays, and with it the
reason why no rule is about the node.

* `Traversal.preorderAt_final`: what a traversal makes of every tree, proved from what an accepted
  node is over operands that are final.
* `Expr.Irreducible e`: no rule is about `e` or a part of it.
* `Context.normalize_irreducible`, `Expr.Irreducible.normalize`: rewriting ends with an irreducible
  tree, and leaves such a tree alone.
-/

namespace PsiCalculus

open SymbolTable

/-! ## What a traversal ends with -/

namespace Traversal

variable {f : Context → Except Error (Option Context)} {G : SymbolTable → SymbolTable → Prop}
  {Inv : Context → Prop} {Rel : Context → Context → Prop} {Final : Expr → Prop}

theorem descend_final (hp : Preserves f G Inv Rel)
    {recurse : Path → Context → ExceptT Error Id Outcome}
    (hrec : ∀ {path c o}, Inv c → run (recurse path c) = .ok o →
      Rel c o.context ∧ Final o.context.tree) {path : Path} :
    ∀ {index : Nat} {t : SymbolTable} {es : List Expr} {operands : Operands},
      (∀ e ∈ es, Inv ⟨e, t⟩) → run (descend recurse path index t es) = .ok operands →
      ∀ e ∈ operands.trees, Final e
  | _, _, [], _, _, h => by
    cases h
    simp
  | index, t, e :: es, operands, hinv, h => by
    rw [descend] at h
    simp only [run_bind, except_bind_ok, run_pure, Except.ok.injEq] at h
    obtain ⟨first, hfirst, others, hothers, rfl⟩ := h
    obtain ⟨hrel, hfinal⟩ := hrec (hinv e (.head _)) hfirst
    refine List.forall_mem_cons.2 ⟨hfinal, descend_final hp hrec (fun e' he' => ?_) hothers⟩
    exact hp.mono (hinv e' (.tail _ he')) (hp.grows hrel)

/-- **A traversal ends with final trees** if an accepted node over final operands is final. -/
theorem preorderAt_final (hp : Preserves f G Inv Rel)
    (hnode : ∀ {c es t}, Inv c → f c = .ok none → Threads Rel c.table c.tree.children es t →
      (∀ e ∈ es, Final e) → Final (c.tree.withChildren es)) {limit : Nat} :
    ∀ {depth : Nat} {path : Path} {c : Context} {o : Outcome}, Inv c →
      run (preorderAt (.ofExcept f) limit depth path c) = .ok o → Final o.context.tree
  | 0, _, _, _, _, h => by cases h
  | depth + 1, path, c, o, hc, h => by
    rw [preorderAt] at h
    simp only [run_bind, except_bind_ok, run_liftExcept, run_pure, Except.ok.injEq] at h
    obtain ⟨settled, hsettled, operands, hoperands, c₁, hc₁, rfl⟩ := h
    obtain ⟨-, hinv, hnone, -⟩ := settle_rel hp hc hsettled
    have hchildren : ∀ e ∈ settled.context.tree.children, Inv ⟨e, settled.context.table⟩ :=
      fun e he => hp.child hinv hnone he
    obtain ⟨hthreads, hsame⟩ := descend_rel hp (fun hi hr => preorderAt_rel hp hi hr) hchildren
      hoperands
    have hfinal := descend_final hp (fun hi hr =>
      ⟨(preorderAt_rel hp hi hr).1, preorderAt_final hp hnode hi hr⟩) hchildren hoperands
    obtain rfl := reassemble_ok hsame hc₁
    exact hnode hinv hnone hthreads hfinal

end Traversal

/-! ## Rules and their patterns -/

namespace Rule

theorem mem_all (rule : Rule) : rule ∈ all := by
  cases rule <;> decide

theorem find?_eq_none {e : Expr} : find? e = none ↔ ∀ rule : Rule, rule.pattern.fits e = false := by
  rw [find?, List.find?_eq_none]
  constructor
  · intro h rule
    simpa using h rule (mem_all rule)
  · intro h rule _
    simp [h rule]

/-- A psi of two operands is rewritten by the rule for the operator that it indexes. -/
theorem find?_pair (s : Option Shape) (p : Payload) (v X : Expr) :
    find? (.node .psi s p [v, X]) = ruleFor? X.op := by
  obtain ⟨op, a, q, children⟩ := X
  cases op <;> rfl

/-- No rule is about a psi of one operand, or of three. -/
theorem find?_length {e : Expr} (h : e.children.length ≠ 2) : find? e = none := by
  obtain ⟨op, a, p, children⟩ := e
  refine find?_eq_none.2 fun rule => ?_
  have hlength : ((2 : Nat) == children.length) = false := beq_eq_false_iff_ne.2 (Ne.symm h)
  cases rule <;> simp [pattern, Pattern.psiOver, Pattern.fits, hlength]

/-- What no rule is named for is no psi. -/
theorem ne_psi_of_ruleFor? {op : Operator} (h : ruleFor? op = none) : op ≠ .psi := by
  rintro rfl
  cases h

/-- Rewriting leaves the operator of a tree whose root is no psi. -/
theorem preserves_op : Traversal.Preserves rewrite (fun _ _ => True) (fun _ => True)
    fun c c' => c.tree.op ≠ .psi → c'.tree.op = c.tree.op where
  refl _ _ := rfl
  trans h₁ h₂ hop := (h₂ (by rwa [h₁ hop])).trans (h₁ hop)
  grows _ := trivial
  mono _ _ := trivial
  step _ h := ⟨trivial, fun hop => absurd (rewrite_op h) hop⟩
  child _ _ _ := trivial
  node {c _ _} _ _ _ _ := by
    obtain ⟨⟨_, _, _, _⟩, _⟩ := c
    rfl

/-- A node that no rule is about stays one when its operands are rewritten. -/
theorem find?_withChildren {e : Expr} {es : List Expr} {t t' : SymbolTable}
    (h : find? e = none)
    (hes : Traversal.Threads (fun c c' => c.tree.op ≠ .psi → c'.tree.op = c.tree.op) t e.children
      es t') : find? (e.withChildren es) = none := by
  obtain ⟨op, s, p, children⟩ := e
  by_cases hop : op = .psi
  · subst hop
    by_cases hlength : children.length = 2
    · obtain ⟨v, X, rfl⟩ := List.length_eq_two.1 hlength
      obtain ⟨v', X', _, rfl, -, hX⟩ := hes.two
      rw [find?_pair] at h
      rw [Expr.withChildren, find?_pair, hX (ne_psi_of_ruleFor? h)]
      exact h
    · exact find?_length (by simpa [Expr.withChildren, hes.length_eq] using hlength)
  · exact find?_other hop

end Rule

/-! ## Irreducible trees -/

/-- No rule is about the tree or a part of it. -/
inductive Expr.Irreducible : Expr → Prop
  | node {e : Expr} : Rule.find? e = none → (∀ c ∈ e.children, c.Irreducible) → e.Irreducible

namespace Expr.Irreducible

variable {e : Expr}

theorem find? (h : e.Irreducible) : Rule.find? e = none := by
  cases h with
  | node hroot _ => exact hroot

theorem child (h : e.Irreducible) {c : Expr} (hc : c ∈ e.children) : c.Irreducible := by
  cases h with
  | node _ hchildren => exact hchildren c hc

theorem selectFrom (h : e.Irreducible) {path rest : Path} {depth : Nat} {node : Expr}
    (hnode : e.selectFrom path depth rest = .ok node) : node.Irreducible := by
  induction rest generalizing e depth with
  | nil =>
    cases hnode
    exact h
  | cons i rest ih =>
    rw [Expr.selectFrom] at hnode
    split at hnode
    · next child hchild => exact ih (h.child (List.mem_of_getElem? hchild)) hnode
    · cases hnode

/-- Rewriting leaves an irreducible tree alone, whatever the limit. -/
theorem normalize (h : e.Irreducible) (t : SymbolTable) (limit : Nat) :
    Context.normalize limit ⟨e, t⟩ = .ok ⟨e, t⟩ := by
  have hrun : Traversal.run (Traversal.preorderAt (.ofExcept Rule.rewrite) limit (2 * e.size) []
      ⟨e, t⟩) = .ok ⟨⟨e, t⟩, false⟩ :=
    Traversal.quiet_run (fun h => Rule.rewrite_none.2 h.find?) (fun h hc => h.child hc) h (by omega)
  rw [Context.normalize, Traversal.preorder, Traversal.run_map, Traversal.map_ok]
  exact ⟨_, hrun, rfl⟩

end Expr.Irreducible

namespace Context

theorem normalize_irreducible {c r : Context} {limit : Nat} (h : c.normalize limit = .ok r) :
    r.tree.Irreducible := by
  rw [normalize, Traversal.preorder, Traversal.run_map, Traversal.map_ok] at h
  obtain ⟨o, ho, rfl⟩ := h
  refine Traversal.preorderAt_final Rule.preserves_op (fun {c es t} _ hnone hes hfinal => ?_)
    trivial ho
  refine .node (Rule.find?_withChildren (Rule.rewrite_none.1 hnone) hes) fun e he => hfinal e ?_
  obtain ⟨⟨_, _, _, _⟩, _⟩ := c
  exact he

/-- **Reduction ends in a normal form**, for every context and every limit: no rule is about a node
at any path, and rewriting once more changes neither the tree nor the table. -/
theorem reduce_normal {c r : Context} {limit : Nat} (h : c.reduce limit = .ok r) :
    (∀ path node, r.tree.select path = .ok node → ∀ rule : Rule, rule.pattern.fits node = false) ∧
      ∀ limit', r.normalize limit' = .ok r := by
  obtain ⟨c₁, -, hnormalize⟩ := except_bind_ok.1 h
  have hr := normalize_irreducible hnormalize
  refine ⟨fun path node hnode => ?_, fun limit' => hr.normalize r.table limit'⟩
  exact Rule.find?_eq_none.1 (hr.selectFrom hnode).find?

/-- A transpose under a guard that indexes one, which no source has: both are rewritten. -/
theorem reduce_normal_guard : ∃ c r : Context, c.reduce 2 = .ok r ∧
    (c.tree.select [0]).isOk ∧ c.tree.select [0] ≠ r.tree.select [0] ∧
    c.tree.select [1] ≠ r.tree.select [1] ∧
    (∀ path node, r.tree.select path = .ok node → ∀ rule : Rule, rule.pattern.fits node = false) ∧
    ∀ limit', r.normalize limit' = .ok r := by
  let matrix := Expr.array "A" (some [.int 2, .int 3])
  let turned := Expr.unary .transpose (some [.int 3, .int 2]) matrix
  let c : Context := ⟨.binary .condition turned.shape
    (.binary .psi (some []) (.array "v" (some [.int 2])) turned) turned,
    ⟨[("A", .array matrix.shape none), ("v", .array (some [.int 2]) (some [.int 2, .int 1]))], 0⟩⟩
  have hrun : (do
      let r ← c.reduce 2
      return decide ((c.tree.select [0]).isOk = true ∧
        (c.tree.select [0]).toOption ≠ (r.tree.select [0]).toOption ∧
        (c.tree.select [1]).toOption ≠ (r.tree.select [1]).toOption)) = .ok true := by
    decide +kernel
  obtain ⟨r, hr, hrun⟩ := except_bind_ok.1 hrun
  simp only [pure, Except.pure, Except.ok.injEq, decide_eq_true_eq] at hrun
  obtain ⟨hguard, hleft, hright⟩ := hrun
  exact ⟨c, r, hr, hguard, fun h => hleft (congrArg _ h), fun h => hright (congrArg _ h),
    reduce_normal hr⟩

end Context

end PsiCalculus
