import PsiCalculus.Proofs.Shape.Deferral
import PsiCalculus.Proofs.Traversal
import PsiCalculus.Proofs.WellScoped.Basic

/-!
# Shape inference stays in scope

Every shape that is inferred is made of the elements of the operands' shapes, and every comparison that
is deferred compares scalars of the table (`Infer.stays_nodeShape`). One visit keeps a context in scope
(`Infer.shapeNode_scoped`), and so does the traversal (`Traversal.postorder_scoped`).
-/

namespace PsiCalculus

open SymbolTable

/-! ## Traversals, operands first -/

namespace Traversal

variable {f : Context → Except Error Context}

theorem postorderAll_scoped {path : Path} {es : List Expr}
    (ih : ∀ e ∈ es, ∀ {path t c}, t.Ordered → e.InScope t → postorderFrom f path t e = .ok c →
      c.WellScoped ∧ Extends t c.table) :
    ∀ {index : Nat} {t : SymbolTable} {operands : Operands}, t.Ordered → (∀ e ∈ es, e.InScope t) →
      run (postorderAll (.ofExcept fun c => some <$> f c) path index t es) = .ok operands →
      operands.table.Ordered ∧ Extends t operands.table ∧
        (∀ e ∈ operands.trees, e.InScope operands.table) ∧
        (operands.changed = false → operands.trees = es) := by
  induction es with
  | nil =>
    intro index t operands ht _ h
    cases h
    exact ⟨ht, .refl _, by simp, fun _ => rfl⟩
  | cons e es ihs =>
    intro index t operands ht hes h
    rw [postorderAll] at h
    simp only [run_bind, except_bind_ok, run_pure, Except.ok.injEq] at h
    obtain ⟨first, hfirst, others, hothers, rfl⟩ := h
    have hfrom : postorderFrom f (path ++ [index]) t e = .ok first.context := by
      rw [postorderFrom, hfirst]
      rfl
    obtain ⟨hc, hg⟩ := ih e (.head _) ht (hes e (.head _)) hfrom
    obtain ⟨ht', hg', htrees, -⟩ := ihs (fun e he => ih e (.tail _ he)) hc.table
      (fun e he => (hes e (.tail _ he)).mono hg) hothers
    refine ⟨ht', hg.trans hg', List.forall_mem_cons.2 ⟨hc.tree.mono hg', htrees⟩, fun hch => ?_⟩
    rw [changed_of_postorderAt hfirst] at hch
    cases hch

/-- What one visit keeps in scope, a traversal does. -/
theorem postorder_scoped (hf : ∀ {c c'}, c.WellScoped → f c = .ok c' →
      c'.WellScoped ∧ Extends c.table c'.table) (e : Expr) :
    ∀ {path : Path} {t : SymbolTable} {c : Context}, t.Ordered → e.InScope t →
      postorderFrom f path t e = .ok c → c.WellScoped ∧ Extends t c.table := by
  induction e using Expr.induction_on_children with
  | node op shape payload children ih =>
    intro path t c ht he h
    obtain ⟨operands, c₁, hoperands, hc₁, hvisit⟩ := postorderAt_ok.1 h
    obtain ⟨ht', hg, htrees, hsame⟩ := postorderAll_scoped ih ht he.children hoperands
    obtain rfl := reassemble_ok hsame hc₁
    obtain ⟨hc, hg'⟩ := hf ⟨(he.mono hg).withChildren htrees, ht'⟩ hvisit
    exact ⟨hc, hg.trans hg'⟩

end Traversal

/-! ## Deferred comparisons -/

namespace Infer

/-- The comparisons deferred so far are in scope. -/
def view : View Pending :=
  ⟨Pending.table, fun p => p.table.Ordered ∧ ∀ e ∈ p.conditions, e.InScope p.table⟩

variable {t : SymbolTable}

theorem stays_fault {α : Type} {P : SymbolTable → α → Prop} (f : ShapeFault) :
    Stays view t (fault f) P := .throw _

theorem stays_scalar {x : Element} (hx : t.Scalar x) :
    Stays view t (scalar x) fun t' e => e.InScope t' := by
  cases x with
  | symbolic node =>
    obtain ⟨name, s, rfl, hget, hs⟩ := hx.symbolic
    exact .pure fun t' ht => .array (ht.get? hget) (by simp)
  | int n =>
    intro p p' e hp ht h
    simp only [scalar, bind_ok, get_ok, lift_ok, set_ok, pure_ok, Prod.mk.injEq] at h
    obtain ⟨_, _, ⟨rfl, rfl⟩, _, _, ⟨⟨leaf, table⟩, hrun, rfl, rfl⟩, _, _, ⟨-, rfl⟩, rfl, rfl⟩ := h
    obtain ⟨htable, hg, hleaf⟩ := Grow.stays_scalar (t := t) n p.table _ _ hp.1 ht hrun
    exact ⟨⟨htable, fun e he => (hp.2 e he).mono hg⟩, hg, hleaf⟩

theorem stays_compare (op : CompareOp) {l r : Element} (hl : t.Scalar l) (hr : t.Scalar r) :
    Stays view t (compare op l r) fun _ _ => True := by
  refine (stays_scalar hl).bind fun t₁ left h₁ hleft =>
    (stays_scalar (hr.mono h₁)).bind fun t₂ right h₂ hright => ?_
  intro p p' a hp ht h
  cases modify_ok.1 h
  refine ⟨⟨hp.1, fun e he => ?_⟩, .refl _, trivial⟩
  rcases List.mem_append.1 he with he | he
  · exact hp.2 e he
  · rw [List.mem_singleton.1 he]
    exact .binary (by simp) (hleft.mono (h₂.trans ht)) (hright.mono ht)

theorem stays_matchAxis (op : Operator) (axis : Nat) {l r : Element} (hl : t.Scalar l)
    (hr : t.Scalar r) : Stays view t (matchAxis op axis l r) fun t' x => t'.Scalar x := by
  cases l with
  | int l =>
    cases r with
    | int r => exact .ite (fun _ => .pure fun t' _ => .int t' l) fun _ => stays_fault _
    | symbolic r => exact (stays_compare .equal hl hr).bind fun _ _ _ _ => .pure fun t' _ => .int t' l
  | symbolic l =>
    cases r with
    | int r => exact (stays_compare .equal hl hr).bind fun _ _ _ _ => .pure fun t' _ => .int t' r
    | symbolic r =>
      have hpure : ∀ {t₁}, Extends t t₁ →
          Stays view t₁ (pure (Element.symbolic l)) fun t' x => t'.Scalar x :=
        fun h₁ => .pure fun t' ht => hl.mono (h₁.trans ht)
      exact .ite (fun _ => (stays_compare .equal hl hr).bind fun _ _ h₁ _ => hpure h₁)
        fun _ => hpure (.refl _)

theorem stays_matchAxes (op : Operator) (axis : Nat) (ls rs : Shape) (hl : ∀ x ∈ ls, t.Scalar x)
    (hr : ∀ x ∈ rs, t.Scalar x) :
    Stays view t (matchAxes op axis ls rs) fun t' shape => ∀ x ∈ shape, t'.Scalar x := by
  fun_induction matchAxes op axis ls rs generalizing t with
  | case1 axis l ls r rs ih =>
    refine (stays_matchAxis op axis (hl l (.head _)) (hr r (.head _))).bind fun t₁ first h₁ hfirst =>
      (ih (fun x hx => (hl x (.tail _ hx)).mono h₁) fun x hx => (hr x (.tail _ hx)).mono h₁).bind
        fun t₂ rest h₂ hrest => .pure fun t' ht => List.forall_mem_cons.2 ⟨hfirst.mono (h₂.trans ht),
          fun x hx => (hrest x hx).mono ht⟩
  | case2 => exact .pure fun _ _ => by simp

theorem stays_matchShapes (op : Operator) {left right : Shape} (hl : ∀ x ∈ left, t.Scalar x)
    (hr : ∀ x ∈ right, t.Scalar x) :
    Stays view t (matchShapes op left right) fun t' shape => ∀ x ∈ shape, t'.Scalar x :=
  .ite (fun _ => stays_matchAxes op 0 left right hl hr) fun _ => stays_fault _

theorem stays_checkBounds (axis : Nat) (is bs : Shape) (hi : ∀ x ∈ is, t.Scalar x)
    (hb : ∀ x ∈ bs, t.Scalar x) : Stays view t (checkBounds axis is bs) fun _ _ => True := by
  fun_induction checkBounds axis is bs generalizing t with
  | case1 axis i is b bs hlt ih =>
    exact ih (fun x hx => hi x (.tail _ hx)) fun x hx => hb x (.tail _ hx)
  | case2 => exact stays_fault _
  | case3 axis i is b bs _ ih =>
    exact (stays_compare .less (hi i (.head _)) (hb b (.head _))).bind fun t₁ _ h₁ _ =>
      ih (fun x hx => (hi x (.tail _ hx)).mono h₁) fun x hx => (hb x (.tail _ hx)).mono h₁
  | case4 => exact .pure fun _ _ => trivial

/-! ## The shapes of nodes -/

section
variable {node : Expr}

theorem stays_operand (hn : node.InScope t) (index : Nat) :
    Stays view t (operand node index) fun t' e => e.InScope t' := by
  unfold operand
  split
  · next child hchild =>
    exact .pure fun _ ht => (hn.children child (List.mem_of_getElem? hchild)).mono ht
  · exact stays_fault _

theorem stays_operandShape (hn : node.InScope t) (index : Nat) :
    Stays view t (operandShape node index) fun t' shape => ∀ x ∈ shape, t'.Scalar x := by
  refine (stays_operand hn index).bind fun t₁ e _ he => ?_
  split
  · next shape hshape => exact .pure fun _ ht x hx => (he.shape hshape x hx).mono ht
  · exact stays_fault _

theorem stays_operandValue (hn : node.InScope t) (index : Nat) :
    Stays view t (operandValue node index) fun t' value => ∀ x ∈ value.getD [], t'.Scalar x := by
  refine (stays_operand hn index).bind fun t₁ e _ he => ?_
  split
  · next name hname =>
    refine Stays.get.bind fun t₂ p _ hp => ?_
    obtain ⟨hgood, rfl⟩ := hp
    refine Stays.bind (P := fun t' (s : Symbol) => ∀ x ∈ s.value.getD [], t'.Scalar x)
      (.lift fun t' s ht hget x hx => ?_) fun t₃ s _ hs => .pure fun _ ht x hx => (hs x hx).mono ht
    exact (hgood.1.elements (SymbolTable.get_ok.1 hget) x
      (List.mem_append_right _ hx)).mono ht
  · exact .pure fun _ _ => by simp

theorem stays_arrayShape (node : Expr) :
    Stays view t (arrayShape node) fun t' shape => ∀ x ∈ shape, t'.Scalar x := by
  refine Stays.get.bind fun t₁ p _ hp => ?_
  obtain ⟨hgood, rfl⟩ := hp
  refine Stays.bind (P := fun t' (s : Symbol) => ∀ x ∈ s.shape.getD [], t'.Scalar x)
    (.lift fun t' s ht hs x hx => ?_) fun t₂ s _ hs => ?_
  · unfold Context.arraySymbol at hs
    split at hs
    · exact (hgood.1.elements (SymbolTable.get_ok.1 hs) x (List.mem_append_left _ hx)).mono ht
    · cases hs
  · split
    · next shape hshape =>
      exact .pure fun _ ht x hx => (hs x (by simpa [hshape] using hx)).mono ht
    · exact stays_fault _

theorem stays_permutedShape (hn : node.InScope t) :
    Stays view t (permutedShape node) fun t' shape => ∀ x ∈ shape, t'.Scalar x := by
  refine (stays_operandShape hn 1).bind fun t₁ shape h₁ hs =>
    (stays_operandValue (hn.mono h₁) 0).bind fun t₂ value h₂ _ => ?_
  split
  · exact stays_fault _
  · refine .ite (fun _ => stays_fault _) fun hlen => ?_
    split
    · next placed hplaced =>
      have hsub := Shape.subset_of_place? (by simpa using hlen) hplaced
      exact .pure fun _ ht x hx => (hs x (hsub hx)).mono (h₂.trans ht)
    · exact stays_fault _

/-- The shapes of both operands. -/
theorem stays_shapes {β : Type} {f : Shape → Shape → Infer β} {P : SymbolTable → β → Prop}
    (hn : node.InScope t) (hf : ∀ t₁ left right, Extends t t₁ → (∀ x ∈ left, t₁.Scalar x) →
      (∀ x ∈ right, t₁.Scalar x) → Stays view t₁ (f left right) P) :
    Stays view t (do f (← operandShape node 0) (← operandShape node 1)) P :=
  (stays_operandShape hn 0).bind fun _ left h₁ hl =>
    (stays_operandShape (hn.mono h₁) 1).bind fun t₂ right h₂ hr =>
      hf t₂ left right (h₁.trans h₂) (fun x hx => (hl x hx).mono h₂) hr

theorem stays_equalShape (hn : node.InScope t) :
    Stays view t (equalShape node) fun t' shape => ∀ x ∈ shape, t'.Scalar x :=
  stays_shapes hn fun _ _ _ _ hl hr => stays_matchShapes node.op hl hr

theorem stays_extendedShape (hn : node.InScope t) :
    Stays view t (extendedShape node) fun t' shape => ∀ x ∈ shape, t'.Scalar x :=
  stays_shapes hn fun _ _ _ _ hl hr =>
    .ite (fun _ => .pure fun _ ht x hx => (hr x hx).mono ht) fun _ =>
      .ite (fun _ => .pure fun _ ht x hx => (hl x hx).mono ht) fun _ =>
        stays_matchShapes node.op hl hr

theorem stays_indexLength (shape : Shape) : Stays view t (indexLength shape) fun _ _ => True := by
  unfold indexLength
  split
  · exact .pure fun _ _ => trivial
  · exact stays_fault _
  · exact stays_fault _

theorem stays_selectedShape (hn : node.InScope t) :
    Stays view t (selectedShape node) fun t' shape => ∀ x ∈ shape, t'.Scalar x := by
  refine (stays_operandShape hn 0).bind fun t₁ left h₁ _ => ?_
  refine (stays_operandShape (hn.mono h₁) 1).bind fun t₂ right h₂ hr => ?_
  refine (stays_indexLength left).bind fun t₃ length h₃ _ => .ite (fun _ => stays_fault _) fun _ => ?_
  refine (stays_operandValue (hn.mono (h₁.trans (h₂.trans h₃))) 0).bind fun t₄ value h₄ hv => ?_
  have hdrop : ∀ {t₅}, Extends t₄ t₅ →
      Stays view t₅ (pure (right.drop length)) fun t' shape => ∀ x ∈ shape, t'.Scalar x :=
    fun h₅ => .pure fun _ ht x hx =>
      (hr x (List.mem_of_mem_drop hx)).mono (h₃.trans (h₄.trans (h₅.trans ht)))
  split
  · next value =>
    exact (stays_checkBounds 0 value right hv fun x hx => (hr x hx).mono (h₃.trans h₄)).bind
      fun _ _ h₅ _ => hdrop h₅
  · exact hdrop (.refl _)

theorem stays_outerShape (hn : node.InScope t) :
    Stays view t (outerShape node) fun t' shape => ∀ x ∈ shape, t'.Scalar x :=
  stays_shapes (f := fun left right => pure (left ++ right)) hn fun _ _ _ _ hl hr =>
    .pure fun _ ht => List.forall_mem_append.2
      ⟨fun x hx => (hl x hx).mono ht, fun x hx => (hr x hx).mono ht⟩

theorem stays_matchInner {l r : Element} (hl : t.Scalar l) (hr : t.Scalar r) :
    Stays view t (matchInner l r) fun _ _ => True := by
  unfold matchInner
  split
  · exact .ite (fun _ => .pure fun _ _ => trivial) fun _ => stays_fault _
  · exact stays_compare .equal hl hr

theorem stays_innerShape (hn : node.InScope t) :
    Stays view t (innerShape node) fun t' shape => ∀ x ∈ shape, t'.Scalar x := by
  refine (stays_operandShape hn 0).bind fun t₁ left h₁ hl =>
    (stays_operandShape (hn.mono h₁) 1).bind fun t₂ right h₂ hr => ?_
  split
  · next last first rest hlast =>
    have hleft : ∀ x ∈ left, t₂.Scalar x := fun x hx => (hl x hx).mono h₂
    refine (stays_matchInner (hleft last (List.mem_of_getLast? hlast)) (hr first (.head _))).bind
      fun t₃ _ h₃ _ => .pure fun t' ht => List.forall_mem_append.2 ⟨fun x hx => ?_, fun x hx => ?_⟩
    · exact (hleft x ((List.dropLast_sublist _).subset hx)).mono (h₃.trans ht)
    · exact (hr x (.tail _ hx)).mono (h₃.trans ht)
  · exact stays_fault _

/-- **The shape that is inferred is in scope**, and so is every comparison that is deferred. -/
theorem stays_nodeShape (hn : node.InScope t) :
    Stays view t (nodeShape node) fun t' shape => ∀ x ∈ shape, t'.Scalar x := by
  unfold nodeShape
  split
  · exact stays_arrayShape node
  · exact (stays_operandShape hn 0).map fun _ _ h x hx => h x (List.mem_reverse.1 hx)
  · exact stays_permutedShape hn
  · exact stays_equalShape hn
  · exact (stays_operandShape hn 0).bind fun _ _ _ _ =>
      .pure fun t' _ => List.forall_mem_singleton.2 (.int t' _)
  · exact .pure fun _ _ => by simp
  · exact stays_selectedShape hn
  · exact stays_extendedShape hn
  · exact stays_extendedShape hn
  · exact stays_extendedShape hn
  · exact stays_operandShape hn 0
  · exact stays_outerShape hn
  · exact stays_innerShape hn
  · exact (stays_operandShape hn 0).map fun _ _ h x hx => h x (List.mem_of_mem_tail hx)
  · exact .throw _

end

end Infer

/-! ## Conditions -/

namespace Condition

variable {t : SymbolTable}

theorem foldl_and_scoped {rest : List Expr} (hrest : ∀ e ∈ rest, e.InScope t) {g : Expr}
    (hg : g.InScope t) : (rest.foldl (.binary (.logic .and) (some [])) g).InScope t := by
  induction rest generalizing g with
  | nil => exact hg
  | cons e rest ih =>
    exact ih (fun e he => hrest e (.tail _ he)) (.binary (by simp) hg (hrest e (.head _)))

theorem conjunction_scoped {conditions : List Expr} {g : Expr}
    (hc : ∀ e ∈ conditions, e.InScope t) (h : conjunction conditions = some g) : g.InScope t := by
  cases conditions with
  | nil => cases h
  | cons first rest =>
    cases h
    exact foldl_and_scoped (fun e he => hc e (.tail _ he)) (hc first (.head _))

theorem wrap_scoped {tree : Expr} {conditions : List Expr} (htree : tree.InScope t)
    (hc : ∀ e ∈ conditions, e.InScope t) : (wrap tree conditions).InScope t := by
  unfold wrap
  split
  · exact htree
  · next g hg => exact .binary htree.shape_getD (conjunction_scoped hc hg) htree

theorem split?_scoped {e guard consequent : Expr} (he : e.InScope t)
    (h : split? e = some (guard, consequent)) : guard.InScope t ∧ consequent.InScope t := by
  unfold split? at h
  split at h
  · next hch =>
    cases h
    exact ⟨he.children _ (by simp [hch]), he.children _ (by simp [hch])⟩
  · cases h

theorem hoist_scoped {node : Expr} (hn : node.InScope t) :
    (hoist node).1.InScope t ∧ ∀ g ∈ (hoist node).2, g.InScope t := by
  unfold hoist
  split
  · next guard inner _ hch =>
    have hguard : guard.InScope t := hn.children _ (by simp [hch])
    have hinner : inner.InScope t := hn.children _ (by simp [hch])
    split
    · next hsplit =>
      obtain ⟨hg, hcons⟩ := split?_scoped hinner hsplit
      exact ⟨hn.withChildren (List.forall_mem_cons.2 ⟨hguard, List.forall_mem_singleton.2 hcons⟩),
        List.forall_mem_singleton.2 hg⟩
    · exact ⟨hn, by simp⟩
  · exact ⟨hn, by simp⟩
  · refine ⟨hn.withChildren fun c hc => ?_, fun g hg => ?_⟩
    · obtain ⟨child, hchild, rfl⟩ := List.mem_map.1 hc
      have hin := hn.children child hchild
      cases hsplit : split? child with
      | none => exact hin
      | some parts => exact (split?_scoped hin hsplit).2
    · obtain ⟨child, hchild, hmap⟩ := List.mem_filterMap.1 hg
      obtain ⟨⟨guard, consequent⟩, hsplit, rfl⟩ := Option.map_eq_some_iff.1 hmap
      exact (split?_scoped (hn.children child hchild) hsplit).1

end Condition

/-! ## The whole traversal -/

namespace Infer

theorem reducedScalar?_scoped {t : SymbolTable} {node e : Expr} (hn : node.InScope t)
    (h : reducedScalar? node = some e) : e.InScope t := by
  unfold reducedScalar? at h
  split at h
  · next hch =>
    split at h <;> cases h
    exact hn.children _ (by simp [hch])
  · cases h

/-- One visit keeps a context in scope. -/
theorem shapeNode_scoped {c c' : Context} (hc : c.WellScoped) (h : shapeNode c = .ok c') :
    c'.WellScoped ∧ Extends c.table c'.table := by
  obtain ⟨hnode, hlifted⟩ := Condition.hoist_scoped hc.tree
  unfold shapeNode at h
  generalize Condition.hoist c.tree = parts at hnode hlifted h
  obtain ⟨node, lifted⟩ := parts
  dsimp only at hnode hlifted h
  split at h
  · next e hscalar =>
    cases h
    exact ⟨⟨Condition.wrap_scoped (reducedScalar?_scoped hnode hscalar) hlifted, hc.table⟩, .refl _⟩
  · split at h
    · obtain ⟨tree, htree, h⟩ := except_bind_ok.1 h
      cases h
      unfold shapeCondition at htree
      split at htree
      · next hch =>
        cases htree
        refine ⟨⟨Condition.wrap_scoped (hnode.children _ (by simp [hch])) (List.forall_mem_cons.2
          ⟨hnode.children _ (by simp [hch]), hlifted⟩), hc.table⟩, .refl _⟩
      · cases htree
    · obtain ⟨⟨shape, p⟩, hrun, h⟩ := except_bind_ok.1 h
      obtain ⟨⟨htable, hconditions⟩, hg, hshape⟩ := stays_nodeShape hnode { table := c.table } p shape
        ⟨hc.table, by simp⟩ (.refl _) hrun
      have htree : (Condition.wrap (node.withShape (some shape))
          (lifted ++ p.conditions)).InScope p.table :=
        Condition.wrap_scoped ((hnode.mono hg).withShape hshape) (List.forall_mem_append.2
          ⟨fun e he => (hlifted e he).mono hg, hconditions⟩)
      split at h
      · split at h
        · obtain ⟨_, hthrow, -⟩ := except_bind_ok.1 h
          cases hthrow
        · cases h
          exact ⟨⟨htree, htable⟩, hg⟩
      · cases h
        exact ⟨⟨htree, htable⟩, hg⟩

end Infer

/-- **Shape inference keeps a context in scope.** -/
theorem Context.WellScoped.inferShapes {c s : Context} (hc : c.WellScoped)
    (h : c.inferShapes = .ok s) : s.WellScoped ∧ Extends c.table s.table := by
  unfold Context.inferShapes Traversal.postorder at h
  rw [Traversal.run_map] at h
  exact Traversal.postorder_scoped Infer.shapeNode_scoped c.tree hc.table hc.tree h

end PsiCalculus
