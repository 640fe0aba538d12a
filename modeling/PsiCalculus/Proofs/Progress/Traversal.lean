import PsiCalculus.Proofs.Capacity
import PsiCalculus.Proofs.Traversal
import Mathlib.Algebra.Ring.Nat

/-!
# Traversals that succeed

A traversal in preorder can fail in four ways besides the failures of its visitor: a node may be
replaced too often, the tree may become too deep, a node may get a wrong number of operands, and the
table may run out of names. `Advances` says what a visitor has to do at one node so that none of this
happens. Three numbers are attached to a tree: the replacements that its root still takes, the levels
that it still spans, and the symbols that are still entered on its behalf.

* `preorderAt_attains`: a traversal with such a visitor succeeds.
* `quiet_run`: a traversal succeeds where the visitor never acts.
* `second_attains`, `replace_run`: so it does at a node where only the second operand changes, and
  at a node that is replaced once.
-/

namespace PsiCalculus

theorem Expr.size_pos (e : Expr) : 0 < e.size := by
  cases e
  rw [Expr.size]
  omega

theorem Expr.size_child {op : Operator} {shape : Option Shape} {payload : Payload}
    {children : List Expr} {c : Expr} (hc : c ∈ children) :
    c.size < (Expr.node op shape payload children).size := by
  rw [Expr.size]
  induction children with
  | nil => cases hc
  | cons d ds ih =>
    rw [Expr.sizeAll]
    rcases List.mem_cons.1 hc with rfl | hc
    · omega
    · have := ih hc
      omega

namespace Traversal

open SymbolTable

/-- What a visitor has to do at one node for a whole traversal to succeed and to take a context `c` to
some `c'` with `Out c c'`. -/
structure Advances (bound limit : Nat) (f : Context → Except Error (Option Context))
    (Inv : Context → Prop) (Out : Context → Context → Prop) (steps levels demand : Expr → Nat) :
    Prop where
  levels_pos : ∀ {c}, Inv c → 0 < levels c.tree
  steps_le : ∀ {c}, Inv c → steps c.tree ≤ limit
  /-- What is done elsewhere in the tree leaves the invariant. -/
  mono : ∀ {e c c'}, Inv ⟨e, c.table⟩ → Out c c' → Inv ⟨e, c'.table⟩
  /-- A visit succeeds, and a replacement takes fewer steps and no more levels and symbols. -/
  step : ∀ {c n}, Inv c → c.table.Room bound (demand c.tree + n) →
    Attains bound (fun r => ∀ c', r = some c' → Inv c' ∧ c'.table.Room bound (demand c'.tree + n) ∧
      steps c'.tree < steps c.tree ∧ levels c'.tree ≤ levels c.tree ∧
      ∀ c'', Out c' c'' → Out c c'') (f c)
  arity : ∀ {c}, Inv c → f c = .ok none → c.tree.op.arity.accepts c.tree.children.length = true
  /-- An accepted node hands the invariant down. -/
  child : ∀ {c e}, Inv c → f c = .ok none → e ∈ c.tree.children →
    Inv ⟨e, c.table⟩ ∧ levels e < levels c.tree
  children : ∀ {c}, Inv c → f c = .ok none → (c.tree.children.map demand).sum ≤ demand c.tree
  /-- An accepted node is done once its operands are. -/
  node : ∀ {c es t}, Inv c → f c = .ok none → Threads Out c.table c.tree.children es t →
    Out c ⟨c.tree.withChildren es, t⟩

section
variable {bound limit : Nat} {f : Context → Except Error (Option Context)} {Inv : Context → Prop}
  {Out : Context → Context → Prop} {steps levels demand : Expr → Nat}

theorem Threads.length_eq {R : Context → Context → Prop} {t t' : SymbolTable} {es es' : List Expr}
    (h : Threads R t es es' t') : es'.length = es.length := by
  induction h with
  | nil => rfl
  | cons _ _ ih => rw [List.length_cons, List.length_cons, ih]

theorem Threads.one {R : Context → Context → Prop} {t t' : SymbolTable} {e : Expr} {es : List Expr}
    (h : Threads R t [e] es t') : ∃ e', es = [e'] ∧ R ⟨e, t⟩ ⟨e', t'⟩ := by
  cases h with
  | cons hfirst hrest =>
    cases hrest
    exact ⟨_, rfl, hfirst⟩

theorem Threads.two {R : Context → Context → Prop} {t t' : SymbolTable} {l r : Expr} {es : List Expr}
    (h : Threads R t [l, r] es t') :
    ∃ l' r' t₁, es = [l', r'] ∧ R ⟨l, t⟩ ⟨l', t₁⟩ ∧ R ⟨r, t₁⟩ ⟨r', t'⟩ := by
  cases h with
  | cons hfirst hrest =>
    obtain ⟨r', rfl, hsecond⟩ := hrest.one
    exact ⟨_, r', _, rfl, hfirst, hsecond⟩

/-- A visit attains what the visitor does: running out of names has no place in the tree. -/
theorem visitAt_attains {path : Path} {c : Context} {P : Option Context → Prop}
    (h : Attains bound P (f c)) : Attains bound P (run (visitAt (.ofExcept f) path c)) := by
  have hrun : run (visitAt (.ofExcept f) path c) = (f c).mapError (Error.located path) := rfl
  rw [hrun]
  generalize f c = r at h
  cases h with
  | ok ha => exact .ok ha
  | exhausted hb => exact .exhausted hb

theorem reassemble_run {node : Expr} {operands : Operands}
    (harity : node.op.arity.accepts operands.trees.length = true)
    (hsame : operands.changed = false → operands.trees = node.children) :
    reassemble node operands = .ok ⟨node.withChildren operands.trees, operands.table⟩ := by
  unfold reassemble
  cases hch : operands.changed with
  | true => simp [Expr.rebuild, harity, pure, Except.pure, bind, Except.bind]
  | false =>
    rw [hsame hch]
    cases node
    rfl

theorem settle_attains (ha : Advances bound limit f Inv Out steps levels demand) {path : Path}
    {n : Nat} : ∀ {budget : Nat} {c : Context}, Inv c → steps c.tree ≤ budget →
      c.table.Room bound (demand c.tree + n) →
      Attains bound (fun o => Inv o.context ∧ f o.context = .ok none ∧
        o.context.table.Room bound (demand o.context.tree + n) ∧
        levels o.context.tree ≤ levels c.tree ∧ (∀ c'', Out o.context c'' → Out c c'') ∧
        (o.changed = false → o.context = c))
        (run (settle (.ofExcept f) path limit budget c)) := by
  intro budget
  induction budget with
  | zero =>
    intro c hc hsteps hroom
    rw [settle, run_bind]
    refine (visitAt_attains ((ha.step hc hroom).imp fun r hr h => And.intro hr h)).bind ?_
    rintro (_ | c₁) ⟨hr, hstep⟩
    · exact .ok ⟨hc, hr, hroom, Nat.le_refl _, fun _ h => h, fun _ => rfl⟩
    · obtain ⟨-, -, hlt, -⟩ := hstep c₁ rfl
      omega
  | succ budget ih =>
    intro c hc hsteps hroom
    rw [settle, run_bind]
    refine (visitAt_attains ((ha.step hc hroom).imp fun r hr h => And.intro hr h)).bind ?_
    rintro (_ | c₁) ⟨hr, hstep⟩
    · exact .ok ⟨hc, hr, hroom, Nat.le_refl _, fun _ h => h, fun _ => rfl⟩
    · obtain ⟨hc₁, hroom₁, hlt, hlevels, hout⟩ := hstep c₁ rfl
      simp only [run_bind]
      refine (ih hc₁ (by omega) hroom₁).bind fun o ho => ?_
      obtain ⟨hinv, hnone, hroom', hlevels', hout', -⟩ := ho
      exact .ok ⟨hinv, hnone, hroom', Nat.le_trans hlevels' hlevels,
        fun c'' h => hout c'' (hout' c'' h), by simp⟩

theorem descend_attains (ha : Advances bound limit f Inv Out steps levels demand) {depth : Nat}
    {recurse : Path → Context → ExceptT Error Id Outcome}
    (hrec : ∀ {path c n}, Inv c → levels c.tree ≤ depth → c.table.Room bound (demand c.tree + n) →
      Attains bound (fun o => Out c o.context ∧ o.context.table.Room bound n ∧
        (o.changed = false → o.context.tree = c.tree)) (run (recurse path c)))
    {path : Path} {n : Nat} : ∀ {es : List Expr} {index : Nat} {t : SymbolTable},
      (∀ e ∈ es, Inv ⟨e, t⟩ ∧ levels e ≤ depth) → t.Room bound ((es.map demand).sum + n) →
      Attains bound (fun operands => Threads Out t es operands.trees operands.table ∧
        operands.table.Room bound n ∧ (operands.changed = false → operands.trees = es))
        (run (descend recurse path index t es)) := by
  intro es
  induction es with
  | nil =>
    intro index t _ hroom
    exact .ok ⟨.nil, by simpa using hroom, fun _ => rfl⟩
  | cons e es ih =>
    intro index t hes hroom
    rw [descend]
    simp only [run_bind, run_pure]
    rw [List.map_cons, List.sum_cons, Nat.add_assoc] at hroom
    refine (hrec (hes e (.head _)).1 (hes e (.head _)).2 hroom).bind fun first hfirst => ?_
    obtain ⟨hout, hroom₁, hsame⟩ := hfirst
    refine (ih (fun e' he' => ⟨ha.mono (hes e' (.tail _ he')).1 hout, (hes e' (.tail _ he')).2⟩)
      hroom₁).bind fun others hothers => ?_
    obtain ⟨hthreads, hroom₂, hsame'⟩ := hothers
    refine .ok ⟨.cons hout hthreads, hroom₂, fun hch => ?_⟩
    simp only [Bool.or_eq_false_iff] at hch
    rw [hsame hch.1, hsame' hch.2]

/-- **A traversal succeeds if each visit advances it.** The induction is on the levels; the room that
a node leaves is what its later siblings have. -/
theorem preorderAt_attains (ha : Advances bound limit f Inv Out steps levels demand) {n : Nat} :
    ∀ {depth : Nat} {path : Path} {c : Context}, Inv c → levels c.tree ≤ depth →
      c.table.Room bound (demand c.tree + n) →
      Attains bound (fun o => Out c o.context ∧ o.context.table.Room bound n ∧
        (o.changed = false → o.context.tree = c.tree))
        (run (preorderAt (.ofExcept f) limit depth path c)) := by
  intro depth
  induction depth generalizing n with
  | zero =>
    intro path c hc hlevels
    have := ha.levels_pos hc
    omega
  | succ depth ih =>
    intro path c hc hlevels hroom
    rw [preorderAt]
    simp only [run_bind, run_liftExcept, run_pure]
    refine (settle_attains ha hc (ha.steps_le hc) hroom).bind fun settled hsettled => ?_
    obtain ⟨hinv, hnone, hroom₁, hlevels₁, hout, hkept⟩ := hsettled
    have hroom₂ : settled.context.table.Room bound
        ((settled.context.tree.children.map demand).sum + n) :=
      hroom₁.mono (Nat.add_le_add_right (ha.children hinv hnone) n)
    refine (descend_attains ha (fun hi hl hr => ih hi hl hr) (fun e he => ?_) hroom₂).bind
      fun operands hoperands => ?_
    · obtain ⟨hi, hlt⟩ := ha.child hinv hnone he
      exact ⟨hi, by omega⟩
    · obtain ⟨hthreads, hroom₃, hsame⟩ := hoperands
      rw [reassemble_run (by rw [hthreads.length_eq]; exact ha.arity hinv hnone) hsame]
      refine .ok ⟨hout _ (ha.node hinv hnone hthreads), hroom₃, fun hch => ?_⟩
      simp only [Bool.or_eq_false_iff] at hch
      rw [hsame hch.2, hkept hch.1]
      cases c.tree
      rfl

/-! ## Nodes that are left alone -/

theorem settle_quiet {c : Context} (h : f c = .ok none) (path : Path) (budget : Nat) :
    run (settle (.ofExcept f) path limit budget c) = .ok ⟨c, false⟩ := by
  cases budget <;> rw [settle, run_bind, run_visitAt.2 h] <;> rfl

/-- A traversal leaves a tree alone on no part of which the visitor acts. -/
theorem quiet_run {Q : Expr → Prop} (hnone : ∀ {e t}, Q e → f ⟨e, t⟩ = .ok none)
    (hchild : ∀ {e c}, Q e → c ∈ e.children → Q c) :
    ∀ {depth : Nat} {path : Path} {e : Expr} {t : SymbolTable}, Q e → e.size ≤ depth →
      run (preorderAt (.ofExcept f) limit depth path ⟨e, t⟩) = .ok ⟨⟨e, t⟩, false⟩ := by
  intro depth
  induction depth with
  | zero =>
    intro path e t _ hsize
    have := Expr.size_pos e
    omega
  | succ depth ih =>
    intro path e t he hsize
    have hdescend : ∀ {es : List Expr} {index : Nat}, (∀ c ∈ es, Q c ∧ c.size ≤ depth) →
        run (descend (preorderAt (.ofExcept f) limit depth) path index t es) =
          .ok ⟨es, t, false⟩ := by
      intro es
      induction es with
      | nil => intro index _; rfl
      | cons c es ihes =>
        intro index hes
        rw [descend]
        simp only [run_bind, except_bind_ok, run_pure, Except.ok.injEq]
        exact ⟨_, ih (hes c (.head _)).1 (hes c (.head _)).2, _,
          ihes fun c' hc' => hes c' (.tail _ hc'), rfl⟩
    obtain ⟨op, shape, payload, children⟩ := e
    rw [preorderAt]
    simp only [run_bind, except_bind_ok, run_liftExcept, run_pure, Except.ok.injEq]
    refine ⟨_, settle_quiet (hnone he) path limit, _, hdescend fun c hc => ⟨hchild he hc, ?_⟩, _,
      rfl, rfl⟩
    have hlt : c.size < (Expr.node op shape payload children).size := Expr.size_child hc
    omega

/-- The traversal of an accepted node whose first operand is left alone succeeds if that of the second
does. -/
theorem second_attains {P : Context → Prop} {op : Operator} {shape : Option Shape}
    {payload : Payload} {first second : Expr} {t : SymbolTable} {depth : Nat} (hop : op.arity = .fixed 2)
    (hroot : f ⟨.node op shape payload [first, second], t⟩ = .ok none)
    (hfirst : ∀ path, run (preorderAt (.ofExcept f) limit depth path ⟨first, t⟩) =
      .ok ⟨⟨first, t⟩, false⟩)
    (hsecond : ∀ path, Attains bound
      (fun o => P o.context ∧ (o.changed = false → o.context.tree = second))
      (run (preorderAt (.ofExcept f) limit depth path ⟨second, t⟩))) (path : Path) :
    Attains bound (fun o => (∃ e, o.context.tree = .node op shape payload [first, e] ∧
        P ⟨e, o.context.table⟩) ∧
      (o.changed = false → o.context.tree = .node op shape payload [first, second]))
      (run (preorderAt (.ofExcept f) limit (depth + 1) path
        ⟨.node op shape payload [first, second], t⟩)) := by
  rw [preorderAt]
  simp only [run_bind, run_liftExcept, run_pure]
  refine .bind_of_ok (settle_quiet hroot path limit) ?_
  simp only [Expr.children_node, descend, run_bind, run_pure]
  refine Attains.bind (P := fun operands => ∃ e, operands.trees = [first, e] ∧
    P ⟨e, operands.table⟩ ∧ (operands.changed = false → e = second)) ?_ ?_
  · refine .bind_of_ok (hfirst _) (Attains.bind (P := fun operands => ∃ e,
      operands.trees = [e] ∧ P ⟨e, operands.table⟩ ∧ (operands.changed = false → e = second)) ?_ ?_)
    · refine (hsecond _).bind fun o ho => ?_
      exact .ok ⟨o.context.tree, rfl, ho.1, fun hch => ho.2 (by simpa using hch)⟩
    · rintro operands ⟨e, htrees, hP, hsame⟩
      exact .ok ⟨e, by rw [htrees], hP, fun hch => hsame (by simpa using hch)⟩
  · rintro operands ⟨e, htrees, hP, hsame⟩
    refine .bind_of_ok (reassemble_run ?_ fun hch => ?_) (.ok ⟨⟨e, ?_, hP⟩, fun hch => ?_⟩)
    · rw [htrees]
      simp [hop, Arity.accepts]
    · rw [htrees, hsame hch, Expr.children_node]
    · rw [htrees]
      rfl
    · rw [htrees, hsame (by simpa using hch)]
      rfl

/-- The traversal of a node that is replaced once is that of the replacement. -/
theorem replace_run {c c₁ : Context} (hstep : f c = .ok (some c₁)) (hnone : f c₁ = .ok none)
    (hlimit : 0 < limit) (depth : Nat) (path : Path) :
    run (preorderAt (.ofExcept f) limit depth path c) =
      (fun o => { o with changed := true }) <$>
        run (preorderAt (.ofExcept f) limit depth path c₁) := by
  cases depth with
  | zero => rfl
  | succ depth =>
    obtain ⟨budget, rfl⟩ := Nat.exists_eq_succ_of_ne_zero (Nat.ne_of_gt hlimit)
    have hsettled : run (settle (.ofExcept f) path (budget + 1) (budget + 1) c) =
        .ok ⟨c₁, true⟩ := by
      rw [settle, run_bind, run_visitAt.2 hstep]
      exact (run_bind _ _).trans (by rw [settle_quiet hnone]; rfl)
    rw [preorderAt, preorderAt]
    simp only [run_bind, run_liftExcept, run_pure, hsettled, settle_quiet hnone]
    simp only [bind, Except.bind]
    cases run (descend _ path 0 c₁.table c₁.tree.children) with
    | error e => rfl
    | ok operands =>
      dsimp only
      cases reassemble c₁.tree operands <;> rfl

end

end Traversal

end PsiCalculus
