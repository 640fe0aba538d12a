import PsiCalculus.Traversal
import PsiCalculus.Proofs.Growth

/-!
# What a successful traversal does

* Postorder with a visitor that always replaces: `postorderFrom_leaf`, `postorderFrom_unary` and
  `postorderFrom_binary` say what the traversal of a tree is, given those of its operands, and
  `postorder_leaf`, `postorder_unary`, `postorder_binary` when it succeeds.
* Preorder: `Preserves f G Inv Rel` collects what a visitor `f` has to do at one node for `Rel` to
  hold between the whole tree before and after (`preorder_rel`): a replacement keeps the invariant and
  is related to what it replaces, an accepted node passes the invariant on to its operands, and a node
  over related operands is related to the node. On the way the table grows in the sense of `G`, and
  the invariant does not mind (`Preserves.mono`), so that an operand may be visited after others.
* `Arrives f c P`: what a traversal from `c` ends with, put together from the traversals of operands
  and replacements.
-/

namespace PsiCalculus

/-! ## The operators of a tree -/

mutual

/-- The operators of a tree, parents first. -/
def Expr.operators : Expr → List Operator
  | .node op _ _ children => op :: Expr.operatorsAll children
termination_by structural e => e

/-- The operators of several trees. -/
def Expr.operatorsAll : List Expr → List Operator
  | [] => []
  | c :: cs => c.operators ++ Expr.operatorsAll cs
termination_by structural cs => cs

end

theorem Expr.operators_child {op : Operator} {shape : Option Shape} {payload : Payload}
    {children : List Expr} {c : Expr} (hc : c ∈ children) {o : Operator} (ho : o ∈ c.operators) :
    o ∈ (Expr.node op shape payload children).operators := by
  rw [Expr.operators]
  refine List.mem_cons_of_mem _ ?_
  induction children with
  | nil => cases hc
  | cons d ds ih =>
    rw [Expr.operatorsAll, List.mem_append]
    rcases List.mem_cons.1 hc with rfl | hc
    · exact .inl ho
    · exact .inr (ih hc)

namespace Traversal

open SymbolTable

/-! ## Runs -/

section
variable {α β : Type}

theorem run_bind (x : ExceptT Error Id α) (f : α → ExceptT Error Id β) :
    run (x >>= f) = run x >>= fun a => run (f a) := by
  unfold run
  rw [ExceptT.run_bind]
  simp only [Id.run_bind]
  cases x.run.run <;> rfl

theorem run_pure (a : α) : run (pure a : ExceptT Error Id α) = .ok a := rfl

theorem run_map (f : α → β) (x : ExceptT Error Id α) : run (f <$> x) = f <$> run x := by
  unfold run
  rw [ExceptT.run_map]
  rfl

theorem run_liftExcept (x : Except Error α) : run (liftExcept x : ExceptT Error Id α) = x := by
  cases x <;> rfl

end

theorem map_ok {α β : Type} {f : α → β} {x : Except Error α} {b : β} :
    f <$> x = .ok b ↔ ∃ a, x = .ok a ∧ f a = b := by
  cases x <;> simp [Functor.map, Except.map]

theorem map_error {α β : Type} {f : α → β} {x : Except Error α} {e : Error} :
    f <$> x = .error e ↔ x = .error e := by
  cases x <;> simp [Functor.map, Except.map]

theorem run_visitAt {f : Context → Except Error (Option Context)} {path : Path} {c : Context}
    {r : Option Context} : run (visitAt (.ofExcept f) path c) = .ok r ↔ f c = .ok r := by
  have hrun : run (visitAt (.ofExcept f) path c) = (f c).mapError (Error.located path) := rfl
  rw [hrun]
  cases f c <;> simp [Except.mapError]

/-- A node over traversed operands is the node with these operands, provided an unchanged list is the
old one. -/
theorem reassemble_ok {node : Expr} {operands : Operands} {c : Context}
    (hsame : operands.changed = false → operands.trees = node.children)
    (h : reassemble node operands = .ok c) :
    c = ⟨node.withChildren operands.trees, operands.table⟩ := by
  unfold reassemble at h
  split at h
  · obtain ⟨e, he, hc⟩ := except_bind_ok.1 h
    cases hc
    unfold Expr.rebuild at he
    split at he <;> cases he
    rfl
  · next hch =>
    cases h
    rw [hsame (by simpa using hch)]
    cases node
    rfl

/-! ## Postorder, when every node is replaced -/

section Postorder
variable {f : Context → Except Error Context}

/-- The context a traversal of the tree at `path` ends with. -/
def postorderFrom (f : Context → Except Error Context) (path : Path) (t : SymbolTable) (e : Expr) :
    Except Error Context :=
  Outcome.context <$> run (postorderAt (.ofExcept fun c => some <$> f c) path t e)

/-- A traversal visits the operands, builds the node over them and visits it. -/
theorem postorderFrom_node (path : Path) (t : SymbolTable) (op : Operator) (shape : Option Shape)
    (payload : Payload) (children : List Expr) :
    postorderFrom f path t (.node op shape payload children) =
      run (postorderAll (.ofExcept fun c => some <$> f c) path 0 t children) >>= fun operands =>
        reassemble (.node op shape payload children) operands >>= fun c =>
          (f c).mapError (Error.located path) := by
  have hvisit : ∀ c, run (visitAt (.ofExcept fun c => some <$> f c) path c) =
      (some <$> f c).mapError (Error.located path) := fun _ => rfl
  unfold postorderFrom
  rw [postorderAt]
  simp only [run_bind, run_liftExcept, hvisit]
  cases run (postorderAll (.ofExcept fun c => some <$> f c) path 0 t children) with
  | error e => rfl
  | ok operands =>
    cases hc : reassemble (.node op shape payload children) operands with
    | error e => simp [hc, bind, Except.bind, Functor.map, Except.map]
    | ok c =>
      cases hf : f c <;>
        simp [hc, hf, bind, Except.bind, Functor.map, Except.map, Except.mapError, run_pure]

theorem mapError_ok {α : Type} {g : Error → Error} {x : Except Error α} {a : α} :
    x.mapError g = .ok a ↔ x = .ok a := by
  cases x <;> simp [Except.mapError]

theorem postorderAt_ok {path : Path} {t : SymbolTable} {op : Operator} {shape : Option Shape}
    {payload : Payload} {children : List Expr} {c : Context} :
    postorderFrom f path t (.node op shape payload children) = .ok c ↔
      ∃ operands c₁, run (postorderAll (.ofExcept fun c => some <$> f c) path 0 t children) =
        .ok operands ∧ reassemble (.node op shape payload children) operands = .ok c₁ ∧
        f c₁ = .ok c := by
  simp only [postorderFrom_node, except_bind_ok, mapError_ok, exists_and_left]

theorem changed_of_postorderAt {path : Path} {t : SymbolTable} {e : Expr} {o : Outcome}
    (h : run (postorderAt (.ofExcept fun c => some <$> f c) path t e) = .ok o) : o.changed = true := by
  cases e
  rw [postorderAt] at h
  simp only [run_bind, except_bind_ok, run_liftExcept, run_visitAt, map_ok] at h
  obtain ⟨_, _, _, _, _, ⟨_, _, rfl⟩, hr⟩ := h
  cases hr
  rfl

/-- A node of which every operand was replaced is built anew. -/
theorem reassemble_changed {node : Expr} {es : List Expr} (t : SymbolTable)
    (h : node.op.arity.accepts es.length = true) :
    reassemble node ⟨es, t, true⟩ = .ok ⟨node.withChildren es, t⟩ := by
  simp [reassemble, Expr.rebuild, h, pure, Except.pure, bind, Except.bind]

theorem postorderAll_cons (path : Path) (index : Nat) (t : SymbolTable) (e : Expr) (es : List Expr) :
    run (postorderAll (.ofExcept fun c => some <$> f c) path index t (e :: es)) =
      postorderFrom f (path ++ [index]) t e >>= fun c =>
        run (postorderAll (.ofExcept fun c => some <$> f c) path (index + 1) c.table es) >>=
          fun operands => .ok ⟨c.tree :: operands.trees, operands.table, true⟩ := by
  unfold postorderFrom
  rw [postorderAll]
  simp only [run_bind, run_pure]
  cases hfirst : run (postorderAt (.ofExcept fun c => some <$> f c) (path ++ [index]) t e) with
  | error e => rfl
  | ok first =>
    have hch := changed_of_postorderAt hfirst
    simp [hch, bind, Except.bind, Functor.map, Except.map]

theorem postorderFrom_leaf (path : Path) (t : SymbolTable) (name : String) (shape : Option Shape) :
    postorderFrom f path t (.array name shape) =
      (f ⟨.array name shape, t⟩).mapError (Error.located path) := by
  rw [Expr.array, postorderFrom_node, postorderAll]
  rfl

theorem postorderFrom_unary {op : Operator} (hop : op.arity = .fixed 1) (path : Path)
    (t : SymbolTable) (shape : Option Shape) (operand : Expr) :
    postorderFrom f path t (.unary op shape operand) =
      postorderFrom f (path ++ [0]) t operand >>= fun c =>
        (f ⟨.unary op shape c.tree, c.table⟩).mapError (Error.located path) := by
  rw [Expr.unary, postorderFrom_node, postorderAll_cons]
  cases postorderFrom f (path ++ [0]) t operand with
  | error e => rfl
  | ok c =>
    have hnode : reassemble (.node op shape .none [operand]) ⟨[c.tree], c.table, true⟩ =
        .ok ⟨.unary op shape c.tree, c.table⟩ := reassemble_changed _ (by simp [hop, Arity.accepts])
    simp only [postorderAll, bind, Except.bind, run_pure, hnode]

theorem postorderFrom_binary {op : Operator} (hop : op.arity = .fixed 2) (path : Path)
    (t : SymbolTable) (shape : Option Shape) (left right : Expr) :
    postorderFrom f path t (.binary op shape left right) =
      postorderFrom f (path ++ [0]) t left >>= fun c₁ =>
        postorderFrom f (path ++ [1]) c₁.table right >>= fun c₂ =>
          (f ⟨.binary op shape c₁.tree c₂.tree, c₂.table⟩).mapError (Error.located path) := by
  rw [Expr.binary, postorderFrom_node, postorderAll_cons]
  cases postorderFrom f (path ++ [0]) t left with
  | error e => rfl
  | ok c₁ =>
    simp only [postorderAll_cons, bind, Except.bind]
    cases postorderFrom f (path ++ [0 + 1]) c₁.table right with
    | error e => rfl
    | ok c₂ =>
      have hnode : reassemble (.node op shape .none [left, right])
          ⟨[c₁.tree, c₂.tree], c₂.table, true⟩ = .ok ⟨.binary op shape c₁.tree c₂.tree, c₂.table⟩ :=
        reassemble_changed _ (by simp [hop, Arity.accepts])
      simp only [postorderAll, run_pure, hnode]

theorem postorder_leaf {path : Path} {t : SymbolTable} {name : String} {c : Context} :
    postorderFrom f path t (.array name none) = .ok c ↔ f ⟨.array name none, t⟩ = .ok c := by
  rw [postorderFrom_leaf, mapError_ok]

theorem postorder_unary {path : Path} {t : SymbolTable} {op : Operator} {operand : Expr}
    {c : Context} (hop : op.arity = .fixed 1) :
    postorderFrom f path t (.unary op none operand) = .ok c ↔
      ∃ c₁, postorderFrom f (path ++ [0]) t operand = .ok c₁ ∧
        f ⟨.unary op none c₁.tree, c₁.table⟩ = .ok c := by
  simp only [postorderFrom_unary hop, except_bind_ok, mapError_ok]

theorem postorder_binary {path : Path} {t : SymbolTable} {op : Operator} {left right : Expr}
    {c : Context} (hop : op.arity = .fixed 2) :
    postorderFrom f path t (.binary op none left right) = .ok c ↔
      ∃ c₁ c₂, postorderFrom f (path ++ [0]) t left = .ok c₁ ∧
        postorderFrom f (path ++ [1]) c₁.table right = .ok c₂ ∧
        f ⟨.binary op none c₁.tree c₂.tree, c₂.table⟩ = .ok c := by
  simp only [postorderFrom_binary hop, except_bind_ok, mapError_ok, exists_and_left]

end Postorder

/-! ## Preorder -/

/-- Trees taken to others one after the other, the table threaded through. -/
inductive Threads (R : Context → Context → Prop) :
    SymbolTable → List Expr → List Expr → SymbolTable → Prop
  | nil {t : SymbolTable} : Threads R t [] [] t
  | cons {t t₁ t₂ : SymbolTable} {e e' : Expr} {es es' : List Expr} : R ⟨e, t⟩ ⟨e', t₁⟩ →
      Threads R t₁ es es' t₂ → Threads R t (e :: es) (e' :: es') t₂

theorem Threads.imp {R R' : Context → Context → Prop} (hR : ∀ {a b}, R a b → R' a b)
    {t t' : SymbolTable} {es es' : List Expr} (h : Threads R t es es' t') : Threads R' t es es' t' := by
  induction h with
  | nil => exact .nil
  | cons hc _ ih => exact .cons (hR hc) ih

theorem Threads.forall₂ {R : Context → Context → Prop} {P : Expr → Expr → Prop}
    (hR : ∀ {a b}, R a b → P a.tree b.tree) {t t' : SymbolTable} {es es' : List Expr}
    (h : Threads R t es es' t') : List.Forall₂ P es es' := by
  induction h with
  | nil => exact .nil
  | cons hc _ ih => exact .cons (hR hc) ih

/-- What a visitor has to do at one node for `Rel` to hold of a whole traversal. -/
structure Preserves (f : Context → Except Error (Option Context))
    (G : SymbolTable → SymbolTable → Prop) (Inv : Context → Prop) (Rel : Context → Context → Prop) :
    Prop where
  refl : ∀ {c}, Inv c → Rel c c
  trans : ∀ {a b c}, Rel a b → Rel b c → Rel a c
  grows : ∀ {a b}, Rel a b → G a.table b.table
  mono : ∀ {e t t'}, Inv ⟨e, t⟩ → G t t' → Inv ⟨e, t'⟩
  /-- A replacement keeps the invariant. -/
  step : ∀ {c c'}, Inv c → f c = .ok (some c') → Inv c' ∧ Rel c c'
  /-- An accepted node hands the invariant down. -/
  child : ∀ {c e}, Inv c → f c = .ok none → e ∈ c.tree.children → Inv ⟨e, c.table⟩
  /-- An accepted node is related to the node over related operands. -/
  node : ∀ {c es t}, Inv c → f c = .ok none → Threads Rel c.table c.tree.children es t →
    Rel c ⟨c.tree.withChildren es, t⟩

section Preorder
variable {f : Context → Except Error (Option Context)} {G : SymbolTable → SymbolTable → Prop}
  {Inv : Context → Prop} {Rel : Context → Context → Prop}

theorem settle_rel (hp : Preserves f G Inv Rel) {path : Path} {limit : Nat} :
    ∀ {budget : Nat} {c : Context} {o : Outcome}, Inv c →
      run (settle (.ofExcept f) path limit budget c) = .ok o →
      Rel c o.context ∧ Inv o.context ∧ f o.context = .ok none ∧ (o.changed = false → o.context = c)
  | 0, c, o, hc, h => by
    rw [settle] at h
    simp only [run_bind, except_bind_ok, run_visitAt] at h
    obtain ⟨_ | c₁, hr, h⟩ := h
    · cases h
      exact ⟨hp.refl hc, hc, hr, fun _ => rfl⟩
    · cases h
  | budget + 1, c, o, hc, h => by
    rw [settle] at h
    simp only [run_bind, except_bind_ok, run_visitAt] at h
    obtain ⟨_ | c₁, hr, h⟩ := h
    · cases h
      exact ⟨hp.refl hc, hc, hr, fun _ => rfl⟩
    · simp only [run_bind, except_bind_ok] at h
      obtain ⟨o₁, ho₁, h⟩ := h
      cases h
      obtain ⟨hinv, hrel⟩ := hp.step hc hr
      obtain ⟨hrel', hinv', hnone, -⟩ := settle_rel hp hinv ho₁
      exact ⟨hp.trans hrel hrel', hinv', hnone, by simp⟩

theorem descend_rel (hp : Preserves f G Inv Rel) {recurse : Path → Context → ExceptT Error Id Outcome}
    (hrec : ∀ {path c o}, Inv c → run (recurse path c) = .ok o →
      Rel c o.context ∧ (o.changed = false → o.context.tree = c.tree)) {path : Path} :
    ∀ {index : Nat} {t : SymbolTable} {es : List Expr} {operands : Operands},
      (∀ e ∈ es, Inv ⟨e, t⟩) → run (descend recurse path index t es) = .ok operands →
      Threads Rel t es operands.trees operands.table ∧
        (operands.changed = false → operands.trees = es)
  | _, t, [], _, _, h => by
    cases h
    exact ⟨.nil, fun _ => rfl⟩
  | index, t, e :: es, operands, hinv, h => by
    rw [descend] at h
    simp only [run_bind, except_bind_ok, run_pure, Except.ok.injEq] at h
    obtain ⟨first, hfirst, others, hothers, rfl⟩ := h
    obtain ⟨hrel, hsame⟩ := hrec (hinv e (.head _)) hfirst
    obtain ⟨hthreads, hsame'⟩ := descend_rel hp hrec
      (fun e' he' => hp.mono (hinv e' (.tail _ he')) (hp.grows hrel)) hothers
    refine ⟨.cons hrel hthreads, fun hch => ?_⟩
    simp only [Bool.or_eq_false_iff] at hch
    rw [hsame hch.1, hsame' hch.2]

theorem preorderAt_rel (hp : Preserves f G Inv Rel) {limit : Nat} :
    ∀ {depth : Nat} {path : Path} {c : Context} {o : Outcome}, Inv c →
      run (preorderAt (.ofExcept f) limit depth path c) = .ok o →
      Rel c o.context ∧ (o.changed = false → o.context.tree = c.tree)
  | 0, _, _, _, _, h => by cases h
  | depth + 1, path, c, o, hc, h => by
    rw [preorderAt] at h
    simp only [run_bind, except_bind_ok, run_liftExcept, run_pure, Except.ok.injEq] at h
    obtain ⟨settled, hsettled, operands, hoperands, c₁, hc₁, rfl⟩ := h
    obtain ⟨hrel, hinv, hnone, hsame⟩ := settle_rel hp hc hsettled
    obtain ⟨hthreads, hsame'⟩ := descend_rel hp (fun hi hr => preorderAt_rel hp hi hr)
      (fun e he => hp.child hinv hnone he) hoperands
    obtain rfl := reassemble_ok hsame' hc₁
    refine ⟨hp.trans hrel (hp.node hinv hnone hthreads), fun hch => ?_⟩
    simp only [Bool.or_eq_false_iff] at hch
    rw [hsame' hch.2, hsame hch.1]
    cases c.tree
    rfl

/-- **What one visit preserves, the whole traversal does.** -/
theorem preorder_rel (hp : Preserves f G Inv Rel) {limit : Nat} {c c' : Context} (hc : Inv c)
    (h : run (preorder (.ofExcept f) limit c) = .ok c') : Rel c c' := by
  rw [preorder, run_map, map_ok] at h
  obtain ⟨o, ho, rfl⟩ := h
  exact (preorderAt_rel hp hc ho).1

/-- A traversal leaves a tree alone on no part of which the visitor acts. -/
theorem Preserves.quiet {Q : Expr → Prop} (hnone : ∀ {e t}, Q e → f ⟨e, t⟩ = .ok none)
    (hchild : ∀ {e c}, Q e → c ∈ e.children → Q c) :
    Preserves f Eq (fun c => Q c.tree) Eq where
  refl _ := rfl
  trans := Eq.trans
  grows h := congrArg Context.table h
  mono h _ := h
  step hc h := by
    rw [hnone hc] at h
    cases h
  child hc _ he := hchild hc he
  node {c es t} _ _ h := by
    obtain ⟨⟨op, shape, payload, children⟩, table⟩ := c
    have hsame : ∀ {t es es' t'}, Threads Eq t es es' t' → es' = es ∧ t' = t := by
      intro t es es' t' h
      induction h with
      | nil => exact ⟨rfl, rfl⟩
      | cons hc _ ih =>
        cases hc
        exact ⟨by rw [ih.1], ih.2⟩
    obtain ⟨rfl, rfl⟩ := hsame h
    rfl

theorem settle_of_none {c : Context} (h : f c = .ok none) {path : Path} {limit budget : Nat}
    {o : Outcome} (ho : run (settle (.ofExcept f) path limit budget c) = .ok o) : ⟨c, false⟩ = o := by
  cases budget <;> rw [settle, run_bind, run_visitAt.2 h] at ho <;> exact Except.ok.inj ho

/-- The traversal of `c`, if it succeeds, arrives at a context in `P`, and an unchanged tree is the old
one. -/
structure Arrives (f : Context → Except Error (Option Context)) (c : Context)
    (P : Context → Prop) : Prop where
  of_run : ∀ {limit depth : Nat} {path : Path} {o : Outcome},
    run (preorderAt (.ofExcept f) limit depth path c) = .ok o →
    P o.context ∧ (o.changed = false → o.context.tree = c.tree)

theorem Preserves.arrives (hp : Preserves f G Inv Rel) {c : Context} (hc : Inv c) :
    Arrives f c (Rel c) := ⟨fun h => preorderAt_rel hp hc h⟩

namespace Arrives

variable {P : Context → Prop}

theorem preorder {c c' : Context} (h : Arrives f c P) {limit : Nat}
    (hrun : run (preorder (.ofExcept f) limit c) = .ok c') : P c' := by
  rw [Traversal.preorder, run_map, map_ok] at hrun
  obtain ⟨o, ho, rfl⟩ := hrun
  exact (h.of_run ho).1

/-- The traversal of an accepted node whose first operand is left alone is that of the second. -/
theorem second {Q : Expr → Prop} (hq : Preserves f Eq (fun c => Q c.tree) Eq) {op : Operator}
    {shape : Option Shape} {payload : Payload} {first second : Expr} {t : SymbolTable}
    (hroot : f ⟨.node op shape payload [first, second], t⟩ = .ok none) (hfirst : Q first)
    (h : Arrives f ⟨second, t⟩ P) :
    Arrives f ⟨.node op shape payload [first, second], t⟩ fun c =>
      ∃ e, c.tree = .node op shape payload [first, e] ∧ P ⟨e, c.table⟩ := by
  refine ⟨fun {limit depth path o} ho => ?_⟩
  cases depth with
  | zero => cases ho
  | succ depth =>
    rw [preorderAt] at ho
    simp only [run_bind, except_bind_ok, run_liftExcept, run_pure, Except.ok.injEq] at ho
    obtain ⟨settled, hsettled, operands, hoperands, c₁, hc₁, rfl⟩ := ho
    obtain rfl := settle_of_none hroot hsettled
    simp only [descend, run_bind, except_bind_ok, run_pure, Except.ok.injEq,
      Expr.children_node] at hoperands
    obtain ⟨o₁, ho₁, _, ⟨o₂, ho₂, _, rfl, rfl⟩, rfl⟩ := hoperands
    obtain ⟨hsame, -⟩ := preorderAt_rel hq hfirst ho₁
    obtain ⟨⟨tree, table⟩, changed⟩ := o₁
    cases hsame
    obtain ⟨hP, hunchanged⟩ := h.of_run ho₂
    obtain rfl := reassemble_ok (by
      intro hch
      simp only [Bool.or_eq_false_iff, Bool.or_false] at hch
      rw [hunchanged hch.2]
      rfl) hc₁
    refine ⟨⟨o₂.context.tree, rfl, hP⟩, fun hch => ?_⟩
    simp only [Bool.or_eq_false_iff, Bool.or_false, Bool.false_or] at hch
    rw [hunchanged hch.2]
    rfl

/-- The traversal of a node that is replaced once is that of the replacement. -/
theorem replace {c c₁ : Context} (hstep : f c = .ok (some c₁)) (hnone : f c₁ = .ok none)
    (h : Arrives f c₁ P) : Arrives f c P := by
  refine ⟨fun {limit depth path o} ho => ?_⟩
  cases depth with
  | zero => cases ho
  | succ depth =>
    rw [preorderAt] at ho
    simp only [run_bind, except_bind_ok, run_liftExcept, run_pure, Except.ok.injEq] at ho
    obtain ⟨settled, hsettled, operands, hoperands, c₂, hc₂, rfl⟩ := ho
    obtain rfl : (⟨c₁, true⟩ : Outcome) = settled := by
      cases limit with
      | zero =>
        rw [settle, run_bind, run_visitAt.2 hstep] at hsettled
        cases hsettled
      | succ budget =>
        rw [settle, run_bind, run_visitAt.2 hstep] at hsettled
        obtain ⟨o₁, ho₁, hsettled⟩ := except_bind_ok.1 ((run_bind _ _).symm.trans hsettled)
        obtain rfl := settle_of_none hnone ho₁
        exact Except.ok.inj hsettled
    have hrun : run (preorderAt (.ofExcept f) limit (depth + 1) path c₁) =
        .ok ⟨c₂, operands.changed⟩ := by
      have hkept : run (settle (.ofExcept f) path limit limit c₁) = .ok ⟨c₁, false⟩ := by
        cases limit <;> rw [settle, run_bind, run_visitAt.2 hnone] <;> rfl
      rw [preorderAt]
      simp only [run_bind, except_bind_ok, run_liftExcept, run_pure, Except.ok.injEq]
      exact ⟨_, hkept, operands, hoperands, c₂, hc₂, rfl⟩
    exact ⟨(h.of_run hrun).1, fun hch => by simp at hch⟩

end Arrives

end Preorder

end Traversal

end PsiCalculus
