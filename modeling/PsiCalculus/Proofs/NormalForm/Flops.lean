import PsiCalculus.Proofs.Counting
import PsiCalculus.Proofs.NormalForm.Access

/-!
# The cost of reduced trees

No rule drops an operand or takes one twice, an inner product becomes one join and one fold, and
every node that is built carries the shape of the root. So each operation of the shaped tree is done
once for each element of the result.

* `Stamped s e`: a tree on the way; all nodes above indexed operands carry the shape `s`.
* `Pushes.stamped`: a rewrite keeps the work and the stamp; `preserves_work`: so does a traversal.
* `Stamped.flopsFrom`: the cost of an irreducible stamped tree.
* `Context.reduce_flops`: the cost of a reduced context.
-/

namespace PsiCalculus

open SymbolTable

/-! ## Operands -/

namespace Expr

/-- A tree in which every operator can be indexed through. -/
inductive Pushable : Expr → Prop
  | leaf {name : String} {s : Option Shape} : Pushable (.array name s)
  | node {op : Operator} {s : Option Shape} {p : Payload} {es : List Expr} :
      Rule.ruleFor? op ≠ none → (∀ e ∈ es, Pushable e) → Pushable (.node op s p es)

namespace Pushable

variable {e : Expr}

theorem child (h : e.Pushable) {c : Expr} (hc : c ∈ e.children) : c.Pushable := by
  cases h with
  | leaf => cases hc
  | node _ hes => exact hes c hc

theorem array_of_none (h : e.Pushable) (hnone : Rule.ruleFor? e.op = none) :
    ∃ name s, e = .array name s := by
  cases h with
  | leaf => exact ⟨_, _, rfl⟩
  | node hop => exact absurd hnone hop

/-- What has a value is an array, and takes no operations. -/
theorem work_of_valueOf (h : e.Pushable) {t : SymbolTable} {values : Shape}
    (hvalue : t.valueOf e = some values) : e.work = 0 := by
  have hop : e.op = .array := by
    by_contra hop
    simp [valueOf, arrayName?, hop] at hvalue
  obtain ⟨name, s, rfl⟩ := h.array_of_none (hop ▸ rfl)
  rfl

end Pushable

end Expr

/-- A shaped tree without queries can be indexed through. -/
theorem Part.pushable {t : SymbolTable} {e : Expr} (h : Part t e) (hshape : .shape ∉ e.operators)
    (hdim : .dim ∉ e.operators) : e.Pushable := by
  induction h with
  | leaf => exact .leaf
  | @unary op _ _ shape _ _ hlaw ih =>
    have hchild := ih (fun h => hshape (Expr.operators_child (.head _) h))
      (fun h => hdim (Expr.operators_child (.head _) h))
    refine .node ?_ fun c hc => List.mem_singleton.1 hc ▸ hchild
    cases hlaw with
    | transpose | reduce => exact Option.some_ne_none _
    | shape => exact absurd (.head _) hshape
    | dim => exact absurd (.head _) hdim
  | binary _ _ _ _ hlaw ihl ihr =>
    have hl := ihl (fun h => hshape (Expr.operators_child (.head _) h))
      (fun h => hdim (Expr.operators_child (.head _) h))
    have hr := ihr (fun h => hshape (Expr.operators_child (.tail _ (.head _)) h))
      (fun h => hdim (Expr.operators_child (.tail _ (.head _)) h))
    refine .node ?_ fun c hc => ?_
    · cases hlaw <;> exact Option.some_ne_none _
    · rcases List.mem_pair.1 hc with rfl | rfl
      · exact hl
      · exact hr

/-- Inference makes up no operators. -/
theorem Infers.operators_subset {t : SymbolTable} {e e' : Expr} {cs : List Check}
    (h : Infers t e e' cs) : e'.operators ⊆ e.operators := by
  induction h with
  | leaf => exact List.Subset.refl _
  | unary _ _ _ ih =>
    simpa [Expr.unary, Expr.operators, Expr.operatorsAll] using List.cons_subset_cons _ ih
  | binary _ _ _ _ _ ihl ihr =>
    simp only [Expr.binary, Expr.operators, Expr.operatorsAll, List.append_nil]
    intro op hop
    rw [List.mem_cons, List.mem_append] at hop ⊢
    exact hop.imp_right (Or.imp (@ihl op) (@ihr op))
  | scalar _ _ ih =>
    simp only [Expr.unary, Expr.operators, Expr.operatorsAll, List.append_nil]
    exact List.subset_cons_of_subset _ ih

/-! ## One rewrite -/

/-- A tree on the way: what is indexed can be indexed through, and all above it carries the shape. -/
inductive Stamped (s : Option Shape) : Expr → Prop
  | leaf {name : String} {a : Option Shape} : Stamped s (.array name a)
  | psi {v : String} {a : Option Shape} {X : Expr} : X.Pushable →
      Stamped s (.binary .psi s (.array v a) X)
  | join {op : Operator} {l r : Expr} : op = .assign ∨ op.isElementwise = true → Stamped s l →
      Stamped s r → Stamped s (.binary op s l r)
  | fold {op : ArithOp} {k : String} {body : Expr} : Stamped s body →
      Stamped s (.node (.reduce op) s (.name k) [body])

section
variable {t t' : SymbolTable} {s a : Option Shape} {v : String} {X e : Expr}

theorem Stamped.op_ne_condition (h : Stamped s e) : e.op ≠ .condition := by
  cases h with
  | leaf => simp [Expr.array]
  | psi | fold => simp [Expr.binary]
  | join hop =>
    rcases hop with rfl | hop
    · simp [Expr.binary]
    · rintro rfl
      cases hop

theorem NewVector.stamped {elements : Shape} {u : Expr} (h : NewVector t elements u t')
    (hX : X.Pushable) : Stamped s (.binary .psi s u X) ∧ (Expr.binary .psi s u X).work = X.work := by
  obtain ⟨name, -, -, rfl⟩ := h.exists_name
  exact ⟨.psi hX, Expr.work_psi _ _ _ _⟩

theorem PushesOperand.stamped (hX : X.Pushable) (h : PushesOperand t s (.array v a) X e t') :
    Stamped s e ∧ e.work = X.work := by
  cases h with
  | leaf hop =>
    obtain ⟨name, b, rfl⟩ := hX.array_of_none (hop ▸ rfl)
    exact ⟨.leaf, rfl⟩
  | scalar _ hu => exact hu.stamped hX
  | array => exact ⟨.psi hX, Expr.work_psi _ _ _ _⟩

/-- **A rewrite keeps the work** and puts the shape on every node that it builds. -/
theorem Pushes.stamped (hX : X.Pushable) (h : Pushes t s (.array v a) X e t') :
    Stamped s e ∧ e.work = X.work := by
  have hchild : ∀ {Y}, Y ∈ X.children → Y.Pushable := fun hY => hX.child hY
  cases h with
  | assign =>
    refine ⟨.join (.inl rfl) (.psi (hchild (.head _))) (.psi (hchild (.tail _ (.head _)))), ?_⟩
    rw [Expr.binary, Expr.work_pair, Expr.work_psi, Expr.work_psi, Expr.work_pair]
  | psi hfirst _ hu =>
    obtain ⟨hstamped, hwork⟩ := hu.stamped (s := s) (hchild (.tail _ (.head _)))
    refine ⟨hstamped, hwork.trans (Expr.work_second rfl _ _ ?_ _).symm⟩
    exact (hchild (.head _)).work_of_valueOf hfirst
  | transpose _ _ _ hu =>
    obtain ⟨hstamped, hwork⟩ := hu.stamped (s := s) (hchild (.head _))
    refine ⟨hstamped, ?_⟩
    rw [hwork, Expr.work_single]
    exact (Nat.zero_add _).symm
  | permute _ hplaces _ hu =>
    obtain ⟨hstamped, hwork⟩ := hu.stamped (s := s) (hchild (.tail _ (.head _)))
    refine ⟨hstamped, hwork.trans (Expr.work_second rfl _ _ ?_ _).symm⟩
    exact (hchild (.head _)).work_of_valueOf hplaces
  | elementwise hop hl hr =>
    obtain ⟨hleft, hlwork⟩ := hl.stamped (hchild (.head _))
    obtain ⟨hright, hrwork⟩ := hr.stamped (hchild (.tail _ (.head _)))
    refine ⟨.join (.inr hop) hleft hright, ?_⟩
    rw [Expr.binary, Expr.work_pair, Expr.work_pair, hlwork, hrwork]
  | outer _ _ _ hu hw =>
    obtain ⟨hleft, hlwork⟩ := hu.stamped (s := s) (hchild (.head _))
    obtain ⟨hright, hrwork⟩ := hw.stamped (s := s) (hchild (.tail _ (.head _)))
    refine ⟨.join (.inr rfl) hleft hright, ?_⟩
    rw [Expr.binary, Expr.work_pair, hlwork, hrwork, Expr.work_pair]
    rfl
  | inner _ _ _ _ _ hu hw =>
    -- the join and the fold are the two operations of the product
    obtain ⟨hleft, hlwork⟩ := hu.stamped (s := s) (hchild (.head _))
    obtain ⟨hright, hrwork⟩ := hw.stamped (s := s) (hchild (.tail _ (.head _)))
    refine ⟨.fold (.join (.inr rfl) hleft hright), ?_⟩
    rw [Expr.work_single, Expr.binary, Expr.work_pair, hlwork, hrwork, Expr.work_pair]
    simp only [Operator.work]
    omega
  | reduce _ _ _ _ hu =>
    obtain ⟨hbody, hwork⟩ := hu.stamped (s := s) (hchild (.head _))
    refine ⟨.fold hbody, ?_⟩
    rw [Expr.work_single, hwork, Expr.work_single]

end

/-! ## The traversal -/

/-- A tree before and after a traversal that keeps its work and its stamp. -/
structure KeepsWork (s : Option Shape) (c c' : Context) : Prop where
  work : c'.tree.work = c.tree.work
  stamped : Stamped s c.tree → Stamped s c'.tree
  leaf : ∀ {name a}, c.tree = .array name a → c'.tree = c.tree

section
variable {s : Option Shape}

theorem Stamped.step {c c' : Context} (h : Stamped s c.tree) (hr : Rule.rewrite c = .ok (some c')) :
    Stamped s c'.tree ∧ c'.tree.work = c.tree.work := by
  have hop := Rule.rewrite_op hr
  obtain ⟨tree, table⟩ := c
  cases h with
  | leaf | fold => cases hop
  | join hjoin =>
    cases hop
    simp [Operator.isElementwise] at hjoin
  | psi hX =>
    obtain ⟨hstamped, hwork⟩ := (Rule.rewrite_psi hr).stamped hX
    exact ⟨hstamped, hwork.trans (Expr.work_psi _ _ _ _).symm⟩

/-- Operands of a node that no rule is about. -/
theorem Stamped.child {e c : Expr} (h : Stamped s e) (hnone : Rule.find? e = none)
    (hc : c ∈ e.children) : Stamped s c := by
  cases h with
  | leaf => cases hc
  | psi hX =>
    rw [Rule.find?_psi] at hnone
    obtain ⟨name, a, rfl⟩ := hX.array_of_none hnone
    rcases List.mem_pair.1 hc with rfl | rfl <;> exact .leaf
  | join _ hl hr =>
    rcases List.mem_pair.1 hc with rfl | rfl
    · exact hl
    · exact hr
  | fold hbody => exact List.mem_singleton.1 hc ▸ hbody

/-- A node that no rule is about, over operands that were traversed. -/
theorem Stamped.node {t t' : SymbolTable} {e : Expr} {es : List Expr} (h : Stamped s e)
    (hnone : Rule.find? e = none) (hthreads : Traversal.Threads (KeepsWork s) t e.children es t') :
    Stamped s (e.withChildren es) := by
  cases h with
  | leaf =>
    cases hthreads
    exact .leaf
  | psi hX =>
    rw [Rule.find?_psi] at hnone
    obtain ⟨name, a, rfl⟩ := hX.array_of_none hnone
    obtain ⟨v', X', t₁, rfl, hvector, hoperand⟩ := hthreads.two
    have hv' : v' = _ := hvector.leaf rfl
    have hX' : X' = _ := hoperand.leaf rfl
    rw [hv', hX']
    exact .psi hX
  | join hop hl hr =>
    obtain ⟨l', r', t₁, rfl, hleft, hright⟩ := hthreads.two
    exact .join hop (hleft.stamped hl) (hright.stamped hr)
  | fold hbody =>
    obtain ⟨body', rfl, hrel⟩ := hthreads.one
    exact .fold (hrel.stamped hbody)

/-- **Rewriting keeps the work**, at every node of the traversal. -/
theorem preserves_work : Traversal.Preserves Rule.rewrite (fun _ _ => True)
    (fun c => Stamped s c.tree) (KeepsWork s) where
  refl _ := ⟨rfl, id, fun _ => rfl⟩
  trans h₁ h₂ := ⟨h₂.work.trans h₁.work, fun h => h₂.stamped (h₁.stamped h), fun h =>
    (h₂.leaf ((h₁.leaf h).trans h)).trans (h₁.leaf h)⟩
  grows _ := trivial
  mono h _ := h
  step {c c'} h hr := by
    obtain ⟨hstamped, hwork⟩ := h.step hr
    refine ⟨hstamped, hwork, fun _ => hstamped, fun {name a} hleaf => ?_⟩
    have hop := Rule.rewrite_op hr
    rw [hleaf] at hop
    cases hop
  child h hnone hc := h.child (Rule.rewrite_none.1 hnone) hc
  node {c es t} h hnone hthreads := by
    have hnode := h.node (Rule.rewrite_none.1 hnone) hthreads
    have hsum : c.tree.children.map Expr.work = es.map Expr.work := by
      have hall := hthreads.forall₂ (P := fun e e' => e.work = e'.work) (·.work.symm)
      rw [← List.forall₂_map_right_iff, ← List.forall₂_map_left_iff, List.forall₂_eq_eq_eq] at hall
      exact hall
    obtain ⟨⟨op, b, p, children⟩, table⟩ := c
    refine ⟨?_, fun _ => hnode, fun {name a} hleaf => ?_⟩
    · rw [Expr.withChildren, Expr.work_node, Expr.work_node, ← hsum]
      rfl
    · cases hleaf
      cases hthreads
      rfl

end

/-! ## Costs -/

/-- **The cost of an irreducible stamped tree** is its work, for each element of the shape. -/
theorem Stamped.flopsFrom {lengths : List Int} {e : Expr}
    (h : Stamped (some (Shape.ofInts lengths)) e) (he : e.Irreducible) :
    ∀ (path : Path) (total : Int), Cost.flopsFrom path total e =
      Cost.repeated (Cost.productFrom 1 lengths) e.work total := by
  induction h with
  | leaf => exact fun path total => rfl
  | psi hX =>
    have hnone := he.find?
    rw [Rule.find?_psi] at hnone
    obtain ⟨name, a, rfl⟩ := hX.array_of_none hnone
    exact fun path total => rfl
  | @join op l r hop _ _ ihl ihr =>
    intro path total
    rw [Expr.binary, Cost.flopsFrom_pair (Operator.work_join hop), Expr.work_pair, Nat.add_comm,
      Cost.repeated_add, Cost.repeated_add, ihl (he.child (.head _))]
    cases Cost.repeated (Cost.productFrom 1 lengths) l.work total with
    | error _ => rfl
    | ok total => exact congrArg (· >>= _) (ihr (he.child (.tail _ (.head _))) _ total)
  | @fold op k body _ ih =>
    intro path total
    have hwork : (Operator.reduce op).work ≤ 1 := Nat.le_refl 1
    rw [Cost.flopsFrom_single hwork, Expr.work_single, Nat.add_comm, Cost.repeated_add,
      ih (he.child (.head _))]

/-- Above its leaves, an irreducible stamped tree carries the stamp. -/
theorem Stamped.selectFrom {s : Option Shape} {e node : Expr} {path rest : Path} {depth : Nat}
    (h : Stamped s e) (he : e.Irreducible) (hnode : e.selectFrom path depth rest = .ok node)
    (hchildren : node.children ≠ []) : node.shape = s := by
  induction rest generalizing e depth with
  | nil =>
    cases hnode
    cases h with
    | leaf => exact absurd rfl hchildren
    | psi | join | fold => rfl
  | cons i rest ih =>
    rw [Expr.selectFrom] at hnode
    split at hnode
    · next child hchild =>
      have hmem := List.mem_of_getElem? hchild
      exact ih (h.child he.find? hmem) (he.child hmem) hnode
    · cases hnode

/-! ## Reduced contexts -/

/-- A guard takes no operations. -/
theorem Guards.work {t : SymbolTable} {g : Expr} {cs : List Check} (h : Guards t g cs) :
    g.work = 0 := by
  have hstands : ∀ {e x}, Stands t e x → e.work = 0 := by
    intro e x hs
    cases hs <;> exact Expr.work_array _ _
  induction h with
  | one hd =>
    cases hd with
    | compare hl hr => rw [Expr.binary, Expr.work_pair, hstands hl, hstands hr]; rfl
  | and _ _ ihl ihr => rw [Expr.binary, Expr.work_pair, ihl, ihr]; rfl

/-- The guard neither shapes the tree nor does any of its work. -/
theorem Wrapped.shape_work {t : SymbolTable} {e tree : Expr} {ds : List Check}
    (h : Wrapped t e tree ds) : tree.shape = e.shape ∧ tree.work = e.work := by
  cases h with
  | bare => exact ⟨rfl, rfl⟩
  | guarded hg => exact ⟨rfl, Expr.work_second rfl _ _ hg.work _⟩

/-- The cost of a reduced context is the cost of its expression. -/
theorem Context.Reduced.flops_eq {s r : Context} {shape : Shape} {lengths : List Int}
    (h : s.Reduced r shape) (hirr : r.consequent.Irreducible)
    (hstamped : Stamped (some (Shape.ofInts lengths)) r.consequent) :
    r.flops = Cost.repeated (Cost.productFrom 1 lengths) r.consequent.work 0 := by
  rw [Context.flops]
  rcases h.tree_guarded with heq | ⟨a, p, g, cs, heq, hg⟩
  · rw [heq, hstamped.flopsFrom hirr]
  · rw [heq, Cost.flopsFrom, Cost.flopsFromAll, Cost.flopsFrom_idle hg.work]
    show (Cost.flopsFromAll [] 1 0 [r.consequent] >>= _) = _
    rw [Cost.flopsFromAll, hstamped.flopsFrom hirr]
    cases Cost.repeated (Cost.productFrom 1 lengths) r.consequent.work 0 <;> rfl

/-- **The cost of a reduced context depends on the operators of the source and the size of the
result.** For a source without queries whose result has integer lengths, every node of the reduced
expression with operands has the shape of the result, and each pointwise operation, outer product and
reduction is done once for each element of the result, each inner product twice. Counting fails
exactly if it leaves the words. -/
theorem Context.reduce_flops {source : String} {limit : Nat} {c s r : Context} {lengths : List Int}
    (hc : Context.parse source = .ok c) (hshape : .shape ∉ c.tree.operators)
    (hdim : .dim ∉ c.tree.operators) (hs : c.inferShapes = .ok s) (hr : s.reduce limit = .ok r)
    (hroot : s.tree.shape = some (Shape.ofInts lengths)) :
    (∀ path node, r.consequent.select path = .ok node → node.children ≠ [] →
      node.shape = s.tree.shape) ∧
    let ops := s.tree.operators
    let count := ops.countP Operator.isArith + ops.countP Operator.isOuter +
      2 * ops.countP Operator.isInner + ops.countP Operator.isReduce
    (Cost.Fits count lengths → r.flops = .ok (count * lengths.prod)) ∧
      (¬ Cost.Fits count lengths → r.flops = .error .overflow) := by
  have hraw := Context.parse_raw hc
  obtain ⟨e, cs, ds, hshaped⟩ := Context.inferShapes_ok hraw hs
  obtain ⟨_, hred⟩ := Context.reduce_ok hraw hs hr
  have hpart := hshaped.infers.part
  have hsubset := hshaped.infers.operators_subset
  have hpushable := hpart.pushable (fun h => hshape (hsubset h)) (fun h => hdim (hsubset h))
  obtain ⟨hshape', hwork⟩ := hshaped.wrapped.shape_work
  rw [hshape'] at hroot
  have hseed : ∀ {shape u t₁ t₂}, s.SeededTree e shape u t₁ t₂ →
      Stamped (some (Shape.ofInts lengths)) (.binary .psi (some shape) u e) ∧
        (Expr.binary .psi (some shape) u e).work = e.work := by
    intro shape u t₁ t₂ h
    cases h.shape_eq.symm.trans hroot
    exact h.vector.stamped hpushable
  obtain ⟨shape, u, t₁, t₂, hseeded, hrel, -, -⟩ := Context.reduce_rel
    (preserves_work (s := some (Shape.ofInts lengths))) hpart.op_ne_condition hshaped.wrapped hr
    (fun h => (hseed h).1) (fun h hrel => (hrel.stamped (hseed h).1).op_ne_condition)
  have hirr := hred.irreducible hr
  have hstamped := hrel.stamped (hseed hseeded).1
  refine ⟨fun path node hnode hchildren => ?_, ?_⟩
  · rw [hshape', hroot]
    exact hstamped.selectFrom hirr hnode hchildren
  · have hcount : r.consequent.work = s.tree.work :=
      hrel.work.trans ((hseed hseeded).2.trans hwork.symm)
    rw [hred.flops_eq hirr hstamped, hcount, Expr.work, sum_work]
    exact Cost.repeated_product _ lengths

/-- A product of matrices times an outer sum, of which one side is a reduced matrix: five operations for
each of the eight elements. The guard for the inner axes is not counted. -/
theorem Context.reduce_flops_product : ∃ c s r,
    Context.parse "(A ^ <2 n> +.* B ^ <m 4>) * (C ^ <2> .+ (*red D ^ <3 4>))" = .ok c ∧
    .shape ∉ c.tree.operators ∧ .dim ∉ c.tree.operators ∧ c.inferShapes = .ok s ∧
    s.reduce 100 = .ok r ∧ s.tree.shape = some (Shape.ofInts [2, 4]) ∧ r.tree.op = .condition ∧
    (∀ path node, r.consequent.select path = .ok node → node.children ≠ [] →
      node.shape = s.tree.shape) ∧
    r.flops = .ok 40 := by
  have hrun : (do
      let c ← Context.parse "(A ^ <2 n> +.* B ^ <m 4>) * (C ^ <2> .+ (*red D ^ <3 4>))"
      let s ← c.inferShapes
      let r ← s.reduce 100
      let ops := s.tree.operators
      return decide (Operator.shape ∉ c.tree.operators ∧ Operator.dim ∉ c.tree.operators ∧
        s.tree.shape = some (Shape.ofInts [2, 4]) ∧ r.tree.op = Operator.condition ∧
        ops.countP Operator.isArith + ops.countP Operator.isOuter +
          2 * ops.countP Operator.isInner + ops.countP Operator.isReduce = 5)) = .ok true := by
    decide +kernel
  obtain ⟨c, hc, hrun⟩ := except_bind_ok.1 hrun
  obtain ⟨s, hs, hrun⟩ := except_bind_ok.1 hrun
  obtain ⟨r, hr, hrun⟩ := except_bind_ok.1 hrun
  simp only [pure, Except.pure, Except.ok.injEq, decide_eq_true_eq] at hrun
  obtain ⟨hshape, hdim, hroot, hguard, hcount⟩ := hrun
  obtain ⟨hnodes, hflops, -⟩ := Context.reduce_flops hc hshape hdim hs hr hroot
  refine ⟨c, s, r, hc, hshape, hdim, hs, hr, hroot, hguard, hnodes, ?_⟩
  have hfits : Cost.Fits 5 [2, 4] := by
    refine fun _ => ⟨fun n => ?_, by simp [Cost.InRange]⟩
    rcases n with _ | _ | n <;> simp [Cost.InRange]
  rw [hcount] at hflops
  exact hflops hfits

end PsiCalculus
