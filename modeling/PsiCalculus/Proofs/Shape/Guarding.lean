import PsiCalculus.Proofs.Shape.Deferral
import PsiCalculus.Proofs.Traversal

/-!
# Trees under guards

The comparisons that inference defers at a node travel to the root: each node takes over the guards
of its operands and joins its own to them. `Wrapped t e tree ds` says that `tree` is `e` under a guard
for the checks `ds`, or `e` itself if there is none.

* `Infer.Ends t e v`: inference comes to the verdict `v` on the tree `e`, over every table that extends
  `t` and wherever the tree stands. The verdict on a node comes from those on its operands and on its
  own shape: `Ends.leaf`, `Ends.unary`, `Ends.binary` and, where an operand has no shape,
  `Ends.unary_fails`, `Ends.left_fails`, `Ends.right_fails`.
-/

namespace PsiCalculus

open SymbolTable

/-- Guards, one after the other, and all their checks. -/
inductive GuardsAll (t : SymbolTable) : List Expr → List Check → Prop
  | nil : GuardsAll t [] []
  | cons {g : Expr} {gs : List Expr} {cs ds : List Check} : Guards t g cs → GuardsAll t gs ds →
      GuardsAll t (g :: gs) (cs ++ ds)

theorem GuardsAll.mono {t t' : SymbolTable} (h : Extends t t') {gs : List Expr} {cs : List Check}
    (hg : GuardsAll t gs cs) : GuardsAll t' gs cs := by
  induction hg with
  | nil => exact .nil
  | cons hg _ ih => exact .cons (hg.mono h) ih

theorem GuardsAll.append {t : SymbolTable} {gs hs : List Expr} {cs ds : List Check}
    (hg : GuardsAll t gs cs) (hh : GuardsAll t hs ds) : GuardsAll t (gs ++ hs) (cs ++ ds) := by
  induction hg with
  | nil => exact hh
  | cons hg _ ih =>
    rw [List.append_assoc]
    exact .cons hg ih

theorem GuardsAll.of_defers {t : SymbolTable} {gs : List Expr} {cs : List Check}
    (h : List.Forall₂ (Defers t) gs cs) : GuardsAll t gs cs := by
  induction h with
  | nil => exact .nil
  | cons hd _ ih => exact .cons (.one hd) ih

theorem GuardsAll.foldl {t : SymbolTable} {gs : List Expr} {ds : List Check}
    (hg : GuardsAll t gs ds) : ∀ {g : Expr} {cs : List Check}, Guards t g cs →
      Guards t (gs.foldl (.binary (.logic .and) (some [])) g) (cs ++ ds) := by
  induction hg with
  | nil =>
    intro g cs h
    rw [List.append_nil]
    exact h
  | cons hg _ ih =>
    intro g cs h
    rw [← List.append_assoc]
    exact ih (.and h hg)

/-- The tree is `e` under a guard for the checks, or `e` if there are none. -/
inductive Wrapped (t : SymbolTable) (e : Expr) : Expr → List Check → Prop
  | bare : Wrapped t e e []
  | guarded {g : Expr} {ds : List Check} : Guards t g ds →
      Wrapped t e (.binary .condition e.shape g e) ds

namespace Wrapped

variable {t t' : SymbolTable} {e tree : Expr} {ds : List Check}

theorem wrap {gs : List Expr} (h : GuardsAll t gs ds) : Wrapped t e (Condition.wrap e gs) ds := by
  cases h with
  | nil => exact .bare
  | cons hg hgs => exact .guarded (hgs.foldl hg)

theorem split?_bare (hop : e.op ≠ .condition) : Condition.split? e = none := by
  unfold Condition.split?
  split
  · next h _ => exact absurd h hop
  · rfl

theorem consequent (hop : e.op ≠ .condition) (h : Wrapped t e tree ds) :
    (Condition.split? tree).elim tree Prod.snd = e := by
  cases h with
  | bare => rw [split?_bare hop, Option.elim_none]
  | guarded _ => rfl

theorem guards (hop : e.op ≠ .condition) (h : Wrapped t e tree ds) :
    GuardsAll t ((Condition.split? tree).map Prod.fst).toList ds := by
  cases h with
  | bare =>
    rw [split?_bare hop]
    exact .nil
  | guarded hg =>
    have hc := GuardsAll.cons hg .nil
    rw [List.append_nil] at hc
    exact hc

end Wrapped

namespace Infer

theorem hoist_children {op : Operator} (hop : op ≠ .condition) (shape : Option Shape)
    (payload : Payload) (children : List Expr) :
    Condition.hoist (.node op shape payload children) =
      (.node op shape payload (children.map fun c => (Condition.split? c).elim c Prod.snd),
        children.filterMap fun c => (Condition.split? c).map Prod.fst) := by
  unfold Condition.hoist
  split
  · next h _ => exact absurd h hop
  · next h _ => exact absurd h hop
  · rfl

theorem shapeNode_scalar {c : Context} {node e : Expr} {lifted : List Expr}
    (hh : Condition.hoist c.tree = (node, lifted)) (hs : reducedScalar? node = some e) :
    shapeNode c = .ok ⟨Condition.wrap e lifted, c.table⟩ := by
  unfold shapeNode
  rw [hh]
  simp only [hs]
  rfl

theorem shapeNode_ok {c c' : Context} {node : Expr} {lifted : List Expr}
    (hh : Condition.hoist c.tree = (node, lifted)) (hshape : node.shape = none)
    (hop : node.op ≠ .condition) (hs : reducedScalar? node = none) :
    shapeNode c = .ok c' ↔ ∃ shape p, (nodeShape node).run { table := c.table } = .ok (shape, p) ∧
      c' = ⟨Condition.wrap (node.withShape (some shape)) (lifted ++ p.conditions), p.table⟩ := by
  unfold shapeNode
  rw [hh]
  simp only [hs, hop, if_false, hshape, except_bind_ok]
  constructor
  · rintro ⟨⟨shape, p⟩, hrun, h⟩
    cases h
    exact ⟨shape, p, hrun, rfl⟩
  · rintro ⟨shape, p, hrun, rfl⟩
    exact ⟨(shape, p), hrun, rfl⟩

theorem arrayShape_ok {p p' : Pending} {name : String} {s : Shape} :
    (arrayShape (.array name none)).run p = .ok (s, p') ↔
      (∃ symbol, p.table.get? name = some symbol ∧ symbol.shape = some s) ∧ p' = p := by
  have hsymbol : ∀ {t : SymbolTable} {symbol : Symbol},
      Context.arraySymbol ⟨.array name none, t⟩ = .ok symbol ↔ t.get? name = some symbol :=
    SymbolTable.get_ok
  unfold arrayShape
  simp only [bind_ok, PsiCalculus.get_ok, lift_ok, hsymbol, Prod.mk.injEq]
  constructor
  · rintro ⟨_, _, ⟨rfl, rfl⟩, symbol, _, ⟨_, hget, rfl, rfl⟩, h⟩
    split at h
    · next hs =>
      cases pure_ok.1 h
      exact ⟨⟨_, hget, hs⟩, rfl⟩
    · exact (fault_ok.1 h).elim
  · rintro ⟨⟨symbol, hget, hs⟩, rfl⟩
    refine ⟨_, _, ⟨rfl, rfl⟩, symbol, _, ⟨_, hget, rfl, rfl⟩, ?_⟩
    rw [hs]
    exact pure_ok.2 rfl

/-! ## Verdicts on trees -/

/-- The tree `e'` under a guard for the checks, over `t` with the constants of their comparisons. -/
structure Carries (t : SymbolTable) (ds : List Check) (e' : Expr) (c : Context) : Prop where
  grows : GrowsArrays t c.table
  size : c.table.size = t.size + constantsOf ds
  unchanged : ds = [] → c.table = t
  wrapped : Wrapped c.table e' c.tree ds

/-- Over every table that extends `t`, inference comes to the verdict on the tree. -/
structure Ends (t : SymbolTable) (e : Expr) (v : Verdict Expr) : Prop where
  op_ne : ∀ {e'}, v.result = .ok e' → e'.op ≠ .condition
  follows : ∀ path t', Extends t t' → Follows t' (constantsOf v.deferred) v.result
    (Carries t' v.deferred) path (Traversal.postorderFrom shapeNode path t' e)

section
variable {t : SymbolTable} {c : Context} {node : Expr} {lifted : List Expr}

theorem shapeNode_of_run {shape : Shape} {p : Pending}
    (hh : Condition.hoist c.tree = (node, lifted)) (hop : node.op ≠ .condition)
    (hs : reducedScalar? node = none)
    (hrun : (nodeShape node).run { table := c.table } = .ok (shape, p))
    (hshape : ∀ existing, node.shape = some existing → existing = shape) :
    shapeNode c =
      .ok ⟨Condition.wrap (node.withShape (some shape)) (lifted ++ p.conditions), p.table⟩ := by
  unfold shapeNode
  rw [hh]
  simp only [hs, hop, if_false, hrun]
  cases hnode : node.shape with
  | none => rfl
  | some existing =>
    rw [hshape existing hnode]
    simp [bind, Except.bind, pure, Except.pure]

theorem shapeNode_of_error {e : Error} (hh : Condition.hoist c.tree = (node, lifted))
    (hop : node.op ≠ .condition) (hs : reducedScalar? node = none)
    (hrun : (nodeShape node).run { table := c.table } = .error e) : shapeNode c = .error e := by
  unfold shapeNode
  rw [hh]
  simp only [hs, hop, if_false, hrun]
  rfl

/-- **One visit**: the node is given the shape of its verdict, and its own comparisons join the guards
that it took over. -/
theorem shapeNode_follows {v : Verdict Shape} {ds : List Check}
    (hh : Condition.hoist c.tree = (node, lifted)) (hg : GuardsAll c.table lifted ds)
    (hop : node.op ≠ .condition) (hs : reducedScalar? node = none) (hruns : Runs t (nodeShape node) v)
    (hshape : ∀ existing, node.shape = some existing → v.result = .ok existing)
    (hx : Extends t c.table) (path : Path) :
    Follows c.table (constantsOf v.deferred) ((fun shape => node.withShape (some shape)) <$> v.result)
      (fun e' c' => GrowsArrays c.table c'.table ∧
        c'.table.size = c.table.size + constantsOf v.deferred ∧
        (v.deferred = [] → c'.table = c.table) ∧ Wrapped c'.table e' c'.tree (ds ++ v.deferred))
      path ((shapeNode c).mapError (Error.located path)) := by
  have hfollows := hruns { table := c.table } hx
  generalize hrun : (nodeShape node).run { table := c.table } = outcome at hfollows
  cases hfollows with
  | @ok shape r htakes hresult hr =>
    obtain ⟨shape', p⟩ := r
    obtain ⟨rfl, hawaits⟩ := hr
    rw [shapeNode_of_run hh hop hs hrun fun existing he =>
      Except.ok.inj ((hshape existing he).symm.trans hresult)]
    obtain ⟨cs, hcs, hdefers⟩ := hawaits.conditions
    refine .ok htakes (by rw [hresult]; rfl) ⟨hawaits.grows, hawaits.size, fun hnil => ?_, ?_⟩
    · exact congrArg Pending.table (hawaits.unchanged hnil)
    · have hlifted := (hg.mono hawaits.grows.grows.entries).append (.of_defers hdefers)
      rw [hcs, List.nil_append]
      exact .wrap hlifted
  | error htakes hresult =>
    rw [shapeNode_of_error hh hop hs hrun, Error.located_nil]
    exact .error htakes (by rw [hresult]; rfl)
  | exhausted hfull =>
    rw [shapeNode_of_error hh hop hs hrun]
    exact .exhausted hfull

end

namespace Ends

variable {t : SymbolTable} {op : Operator} {sh : Option Shape} {e e' l r l' r' : Expr}
  {ds es : List Check} {v : Verdict Shape}

theorem mono {t' : SymbolTable} {v : Verdict Expr} (hx : Extends t t') (h : Ends t e v) : Ends t' e v :=
  ⟨h.op_ne, fun path _ hx' => h.follows path _ (hx.trans hx')⟩

theorem leaf {name : String} (hruns : Runs t (nodeShape (.array name none)) v)
    (hsh : ∀ existing, sh = some existing → v.result = .ok existing) :
    Ends t (.array name sh) ⟨v.deferred, (fun shape => .array name (some shape)) <$> v.result⟩ := by
  refine ⟨fun he' => ?_, fun path t' hx => ?_⟩
  · obtain ⟨shape, -, rfl⟩ := Traversal.map_ok.1 he'
    simp [Expr.array]
  · have hop : Operator.array ≠ .condition := by simp
    have hh := hoist_children hop sh (.name name) []
    rw [Traversal.postorderFrom_leaf]
    refine (shapeNode_follows (c := ⟨.array name sh, t'⟩) hh .nil hop rfl ?_ hsh hx path).imp
      fun e' c' _ hc' => ⟨hc'.1, hc'.2.1, hc'.2.2.1, hc'.2.2.2⟩
    exact (nodeShape_shape .array sh (.name name) []) ▸ hruns

/-- A node whose operand has no shape has none. -/
theorem unary_fails {error : Error} (hop : op.arity = .fixed 1)
    (h : Ends t e ⟨ds, .error error⟩) :
    Ends t (.unary op sh e) ⟨ds, .error (error.located [0])⟩ := by
  refine ⟨fun he' => (nomatch he'), fun path t' hx => ?_⟩
  rw [Traversal.postorderFrom_unary hop]
  exact (h.follows (path ++ [0]) t' hx).upward.bind_error

theorem hoist_unary {tree : Expr} (hop : op ≠ .condition) (he : e'.op ≠ .condition)
    (h : Wrapped t e' tree ds) (sh : Option Shape) :
    Condition.hoist (.unary op sh tree) =
      (.unary op sh e', ((Condition.split? tree).map Prod.fst).toList) := by
  rw [Expr.unary, hoist_children hop]
  simp only [List.map_cons, List.map_nil, h.consequent he, List.filterMap_cons, List.filterMap_nil]
  cases Condition.split? tree <;> rfl

theorem hoist_binary {t₁ t₂ : SymbolTable} {left right : Expr} (hop : op ≠ .condition)
    (hl : l'.op ≠ .condition) (hr : r'.op ≠ .condition) (hleft : Wrapped t₁ l' left ds)
    (hright : Wrapped t₂ r' right es) (sh : Option Shape) :
    Condition.hoist (.binary op sh left right) =
      (.binary op sh l' r', ((Condition.split? left).map Prod.fst).toList ++
        ((Condition.split? right).map Prod.fst).toList) := by
  rw [Expr.binary, hoist_children hop]
  simp only [List.map_cons, List.map_nil, hleft.consequent hl, hright.consequent hr,
    List.filterMap_cons, List.filterMap_nil]
  cases Condition.split? left <;> cases Condition.split? right <;> rfl

/-- A reduction of a scalar is the scalar. -/
theorem scalar {op : ArithOp} (h : Ends t e ⟨ds, .ok e'⟩) (hs : e'.shape = some []) :
    Ends t (.unary (.reduce op) sh e) ⟨ds, .ok e'⟩ := by
  refine ⟨h.op_ne, fun path t' hx => ?_⟩
  rw [Traversal.postorderFrom_unary rfl]
  refine (h.follows (path ++ [0]) t' hx).anywhere.bind (n := 0) fun c hc =>
    ⟨c.table, hc.grows.counted, hc.size, ?_⟩
  have hne : Operator.reduce op ≠ .condition := by simp
  have hh := hoist_unary hne (h.op_ne rfl) hc.wrapped sh
  have hvisit : shapeNode ⟨.unary (.reduce op) sh c.tree, c.table⟩ =
      .ok ⟨Condition.wrap e' _, c.table⟩ :=
    shapeNode_scalar hh (by simp [reducedScalar?, Expr.unary, hs])
  rw [hvisit]
  exact .ok (fun _ => .zero _) rfl ⟨hc.grows, hc.size, hc.unchanged,
    .wrap (hc.wrapped.guards (h.op_ne rfl))⟩

theorem unary (hop : op.arity = .fixed 1) (h : Ends t e ⟨ds, .ok e'⟩)
    (hs : reducedScalar? (.unary op none e') = none)
    (hruns : Runs t (nodeShape (.unary op none e')) v)
    (hsh : ∀ existing, sh = some existing → v.result = .ok existing) :
    Ends t (.unary op sh e)
      ⟨ds ++ v.deferred, (fun shape => .unary op (some shape) e') <$> v.result⟩ := by
  have hne : op ≠ .condition := by
    rintro rfl
    cases hop
  refine ⟨fun he' => ?_, fun path t' hx => ?_⟩
  · obtain ⟨shape, -, rfl⟩ := Traversal.map_ok.1 he'
    exact hne
  rw [Traversal.postorderFrom_unary hop, constantsOf_append]
  refine (h.follows (path ++ [0]) t' hx).anywhere.bind fun c hc =>
    ⟨c.table, hc.grows.counted, hc.size, ?_⟩
  have hh := hoist_unary hne (h.op_ne rfl) hc.wrapped sh
  have hruns' : Runs t (nodeShape (.unary op sh e')) v :=
    (nodeShape_shape op sh .none [e']) ▸ hruns
  refine (shapeNode_follows (c := ⟨.unary op sh c.tree, c.table⟩) hh
    (hc.wrapped.guards (h.op_ne rfl)) hne hs hruns' hsh (hx.trans hc.grows.grows.entries) path).imp
    fun e'' c' _ hc' => ⟨hc.grows.trans hc'.1, ?_, fun hnil => ?_, hc'.2.2.2⟩
  · rw [hc'.2.1, hc.size, constantsOf_append, Nat.add_assoc]
  · rw [List.append_eq_nil_iff] at hnil
    rw [hc'.2.2.1 hnil.2, hc.unchanged hnil.1]

theorem left_fails {error : Error} (hop : op.arity = .fixed 2) (h : Ends t l ⟨ds, .error error⟩) :
    Ends t (.binary op sh l r) ⟨ds, .error (error.located [0])⟩ := by
  refine ⟨fun he' => (nomatch he'), fun path t' hx => ?_⟩
  rw [Traversal.postorderFrom_binary hop]
  exact (h.follows (path ++ [0]) t' hx).upward.bind_error

theorem right_fails {error : Error} (hop : op.arity = .fixed 2) (hl : Ends t l ⟨ds, .ok l'⟩)
    (hr : Ends t r ⟨es, .error error⟩) :
    Ends t (.binary op sh l r) ⟨ds ++ es, .error (error.located [1])⟩ := by
  refine ⟨fun he' => (nomatch he'), fun path t' hx => ?_⟩
  rw [Traversal.postorderFrom_binary hop, constantsOf_append]
  refine (hl.follows (path ++ [0]) t' hx).anywhere.bind fun c hc =>
    ⟨c.table, hc.grows.counted, hc.size, ?_⟩
  exact (hr.follows (path ++ [1]) c.table (hx.trans hc.grows.grows.entries)).upward.bind_error

theorem binary (hop : op.arity = .fixed 2) (hne : op ≠ .condition) (hl : Ends t l ⟨ds, .ok l'⟩)
    (hr : Ends t r ⟨es, .ok r'⟩) (hruns : Runs t (nodeShape (.binary op none l' r')) v)
    (hsh : ∀ existing, sh = some existing → v.result = .ok existing) :
    Ends t (.binary op sh l r)
      ⟨ds ++ es ++ v.deferred, (fun shape => .binary op (some shape) l' r') <$> v.result⟩ := by
  refine ⟨fun he' => ?_, fun path t' hx => ?_⟩
  · obtain ⟨shape, -, rfl⟩ := Traversal.map_ok.1 he'
    exact hne
  have hscalar : reducedScalar? (.binary op sh l' r') = none := by
    cases op <;> first | rfl | cases hop
  rw [Traversal.postorderFrom_binary hop, List.append_assoc, constantsOf_append, constantsOf_append]
  refine (hl.follows (path ++ [0]) t' hx).anywhere.bind fun c₁ hc₁ =>
    ⟨c₁.table, hc₁.grows.counted, hc₁.size, ?_⟩
  have hx₁ := hx.trans hc₁.grows.grows.entries
  refine (hr.follows (path ++ [1]) c₁.table hx₁).anywhere.bind fun c₂ hc₂ =>
    ⟨c₂.table, hc₂.grows.counted, hc₂.size, ?_⟩
  have hx₂ := hx₁.trans hc₂.grows.grows.entries
  have hh := hoist_binary hne (hl.op_ne rfl) (hr.op_ne rfl) hc₁.wrapped hc₂.wrapped sh
  have hlifted := ((hc₁.wrapped.guards (hl.op_ne rfl)).mono hc₂.grows.grows.entries).append
    (hc₂.wrapped.guards (hr.op_ne rfl))
  have hruns' : Runs t (nodeShape (.binary op sh l' r')) v :=
    (nodeShape_shape op sh .none [l', r']) ▸ hruns
  refine (shapeNode_follows (c := ⟨.binary op sh c₁.tree c₂.tree, c₂.table⟩) hh hlifted hne hscalar
    hruns' hsh hx₂ path).imp fun e' c' _ hc' =>
      ⟨(hc₁.grows.trans hc₂.grows).trans hc'.1, ?_, fun hnil => ?_, ?_⟩
  · rw [hc'.2.1, hc₂.size, hc₁.size, constantsOf_append, constantsOf_append, Nat.add_assoc,
      Nat.add_assoc]
  · simp only [List.append_eq_nil_iff] at hnil
    rw [hc'.2.2.1 hnil.2.2, hc₂.unchanged hnil.2.1, hc₁.unchanged hnil.1]
  · rw [← List.append_assoc]
    exact hc'.2.2.2

end Ends

end Infer

end PsiCalculus
