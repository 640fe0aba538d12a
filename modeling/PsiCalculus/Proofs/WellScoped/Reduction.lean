import PsiCalculus.NormalForm
import PsiCalculus.Proofs.Traversal
import PsiCalculus.Proofs.NormalForm.Step
import PsiCalculus.Proofs.WellScoped.Basic

/-!
# Reduction stays in scope

A rule takes a tree apart and puts its parts together again, under index vectors whose elements are
elements of known index vectors and indices that are entered before (`Rule.stays_apply`). The bound of
an index is an element of a shape of the tree, so that it is entered after what it mentions.

* `Rule.preserves_scope`: one rewrite keeps a context in scope; hence the traversal does.
* `Context.WellScoped.reduce`: so does the whole reduction.
-/

namespace PsiCalculus

open SymbolTable Grow

namespace Rule

variable {t : SymbolTable} {node : Expr}

/-! ## Parts of a tree -/

theorem stays_fault {α : Type} {P : SymbolTable → α → Prop} (f : PatternFault) :
    Stays view t (fault f) P := .throw _

theorem stays_operands (hn : node.InScope t) :
    Stays view t (operands node) fun t' p => p.1.InScope t' ∧ p.2.InScope t' := by
  unfold operands
  split
  · next hch =>
    exact .pure fun _ ht => ⟨(hn.children _ (by simp [hch])).mono ht,
      (hn.children _ (by simp [hch])).mono ht⟩
  · exact stays_fault _

theorem stays_operand (hn : node.InScope t) :
    Stays view t (operand node) fun t' e => e.InScope t' := by
  unfold operand
  split
  · next hch => exact .pure fun _ ht => (hn.children _ (by simp [hch])).mono ht
  · exact stays_fault _

theorem stays_shapeOf (hn : node.InScope t) :
    Stays view t (shapeOf node) fun t' shape => ∀ x ∈ shape, t'.Scalar x := by
  unfold shapeOf
  split
  · next shape hshape => exact .pure fun _ ht x hx => (hn.shape hshape x hx).mono ht
  · exact .throw _

theorem stays_elements (node : Expr) :
    Stays view t (elements node) fun t' values => ∀ x ∈ values, t'.Scalar x := by
  unfold elements
  split
  · exact stays_fault _
  · next name _ =>
    refine (stays_symbol name).bind fun t₁ s _ hs => ?_
    split
    · next value hvalue => exact .pure fun _ ht x hx => (hs.1.value_scalar hs.2 hvalue x hx).mono ht
    · exact stays_fault _

theorem stays_indexed {shape : Option Shape} {elements : Shape} {operand : Expr}
    (hs : ∀ x ∈ shape.getD [], t.Scalar x) (he : ∀ x ∈ elements, t.Scalar x)
    (ho : operand.InScope t) :
    Stays view t (indexed shape elements operand) fun t' e => e.InScope t' :=
  (stays_vector he).bind fun _ _ h₁ hv => .pure fun _ ht =>
    .binary (fun x hx => (hs x hx).mono (h₁.trans ht)) (hv.mono ht) (ho.mono (h₁.trans ht))

/-! ## The rules -/

theorem stays_pushAssign (hn : node.InScope t) :
    Stays view t (pushAssign node) fun t' e => e.InScope t' := by
  refine (stays_operands hn).bind fun t₁ p h₁ hp => (stays_operands hp.2).bind fun t₂ q h₂ hq =>
    .pure fun t' ht => ?_
  have hs : ∀ x ∈ node.shape.getD [], t'.Scalar x := (hn.mono (h₁.trans (h₂.trans ht))).shape_getD
  have hv := hp.1.mono (h₂.trans ht)
  exact .binary hs (.binary hs hv (hq.1.mono ht)) (.binary hs hv (hq.2.mono ht))

theorem stays_pushPsi (hn : node.InScope t) :
    Stays view t (pushPsi node) fun t' e => e.InScope t' := by
  refine (stays_operands hn).bind fun t₁ p h₁ hp => (stays_operands hp.2).bind fun t₂ q h₂ hq =>
    (stays_elements q.1).bind fun t₃ first h₃ hfirst =>
      (stays_elements p.1).bind fun t₄ second h₄ hsecond => ?_
  have hgrows := h₁.trans (h₂.trans (h₃.trans h₄))
  exact stays_indexed (hn.mono hgrows).shape_getD
    (List.forall_mem_append.2 ⟨fun x hx => (hfirst x hx).mono h₄, hsecond⟩)
    (hq.2.mono (h₃.trans h₄))

theorem stays_pushTranspose (hn : node.InScope t) :
    Stays view t (pushTranspose node) fun t' e => e.InScope t' := by
  refine (stays_operands hn).bind fun t₁ p h₁ hp => (stays_operand hp.2).bind fun t₂ X h₂ hX =>
    (stays_elements p.1).bind fun t₃ index h₃ hindex =>
      (stays_shapeOf (hX.mono h₃)).bind fun t₄ _ h₄ _ => .ite (fun _ => stays_fault _) fun _ => ?_
  exact stays_indexed (hn.mono (h₁.trans (h₂.trans (h₃.trans h₄)))).shape_getD
    (fun x hx => (hindex x (List.mem_reverse.1 hx)).mono h₄) (hX.mono (h₃.trans h₄))

theorem stays_pushPermute (hn : node.InScope t) :
    Stays view t (pushPermute node) fun t' e => e.InScope t' := by
  refine (stays_operands hn).bind fun t₁ p h₁ hp => (stays_operands hp.2).bind fun t₂ q h₂ hq =>
    (stays_elements p.1).bind fun t₃ index h₃ hindex =>
      (stays_elements q.1).bind fun t₄ _ h₄ _ => ?_
  split
  · next arranged harranged =>
    exact stays_indexed (hn.mono (h₁.trans (h₂.trans (h₃.trans h₄)))).shape_getD
      (fun x hx => (hindex x (Shape.arrange?_subset harranged hx)).mono h₄)
      (hq.2.mono (h₃.trans h₄))
  · exact stays_fault _

theorem stays_pushOperand {shape : Option Shape} {vector operand : Expr}
    (hs : ∀ x ∈ shape.getD [], t.Scalar x) (hv : vector.InScope t) (ho : operand.InScope t) :
    Stays view t (pushOperand shape vector operand) fun t' e => e.InScope t' := by
  refine .ite (fun _ => .pure fun _ ht => ho.mono ht) fun _ =>
    (stays_shapeOf ho).bind fun t₁ _ h₁ _ => .ite (fun _ => ?_) fun _ => .pure fun _ ht => ?_
  · exact stays_indexed (fun x hx => (hs x hx).mono h₁) (by simp) (ho.mono h₁)
  · exact .binary (fun x hx => (hs x hx).mono (h₁.trans ht)) (hv.mono (h₁.trans ht))
      (ho.mono (h₁.trans ht))

theorem stays_pushElementwise (hn : node.InScope t) :
    Stays view t (pushElementwise node) fun t' e => e.InScope t' := by
  refine (stays_operands hn).bind fun t₁ p h₁ hp => (stays_operands hp.2).bind fun t₂ q h₂ hq => ?_
  have hs : ∀ {t₃}, Extends t₂ t₃ → ∀ x ∈ node.shape.getD [], t₃.Scalar x :=
    fun h₃ => (hn.mono (h₁.trans (h₂.trans h₃))).shape_getD
  have hv := hp.1.mono h₂
  refine (stays_pushOperand (hs (.refl _)) hv hq.1).bind fun t₃ l h₃ hl =>
    (stays_pushOperand (hs h₃) (hv.mono h₃) (hq.2.mono h₃)).bind fun t₄ r h₄ hr =>
      .pure fun t' ht => .binary (hs (h₃.trans (h₄.trans ht))) (hl.mono (h₄.trans ht)) (hr.mono ht)

theorem stays_pushOuter (op : ArithOp) (hn : node.InScope t) :
    Stays view t (pushOuter op node) fun t' e => e.InScope t' := by
  refine (stays_operands hn).bind fun t₁ p h₁ hp => (stays_operands hp.2).bind fun t₂ q h₂ hq =>
    (stays_elements p.1).bind fun t₃ index h₃ hindex =>
      (stays_shapeOf (hq.1.mono h₃)).bind fun t₄ shape h₄ _ => .ite (fun _ => stays_fault _) fun _ => ?_
  have hs : ∀ {t₅}, Extends t₄ t₅ → ∀ x ∈ node.shape.getD [], t₅.Scalar x :=
    fun h₅ => (hn.mono (h₁.trans (h₂.trans (h₃.trans (h₄.trans h₅))))).shape_getD
  have hleft := hq.1.mono (h₃.trans h₄)
  have hright := hq.2.mono (h₃.trans h₄)
  refine (stays_indexed (hs (.refl _)) (fun x hx => (hindex x (List.mem_of_mem_take hx)).mono h₄)
    hleft).bind fun t₅ l h₅ hl => (stays_indexed (hs h₅)
      (fun x hx => (hindex x (List.mem_of_mem_drop hx)).mono (h₄.trans h₅)) (hright.mono h₅)).bind
        fun t₆ r h₆ hr => .pure fun t' ht =>
          .binary (hs (h₅.trans (h₆.trans ht))) (hl.mono (h₆.trans ht)) (hr.mono ht)

theorem stays_pushInner (fold combine : ArithOp) (hn : node.InScope t) :
    Stays view t (pushInner fold combine node) fun t' e => e.InScope t' := by
  refine (stays_operands hn).bind fun t₁ p h₁ hp => (stays_operands hp.2).bind fun t₂ q h₂ hq =>
    (stays_elements p.1).bind fun t₃ index h₃ hindex =>
      (stays_shapeOf (hq.1.mono h₃)).bind fun t₄ shape h₄ hshape => ?_
  have hs : ∀ {t₅}, Extends t₄ t₅ → ∀ x ∈ node.shape.getD [], t₅.Scalar x :=
    fun h₅ => (hn.mono (h₁.trans (h₂.trans (h₃.trans (h₄.trans h₅))))).shape_getD
  have hleft := hq.1.mono (h₃.trans h₄)
  have hright := hq.2.mono (h₃.trans h₄)
  split
  · exact stays_fault _
  · next bound hbound =>
    refine .ite (fun _ => stays_fault _) fun _ => ?_
    -- the index is entered before the vectors that mention it
    refine (stays_index (hshape bound (List.mem_of_getLast? hbound))).bind fun t₅ k h₅ hk => ?_
    have hindex' : ∀ x ∈ index, t₅.Scalar x := fun x hx => (hindex x hx).mono (h₄.trans h₅)
    refine (stays_indexed (hs h₅) (List.forall_mem_append.2
      ⟨fun x hx => hindex' x (List.mem_of_mem_take hx), List.forall_mem_singleton.2 hk⟩)
      (hleft.mono h₅)).bind fun t₆ l h₆ hl => ?_
    refine (stays_indexed (hs (h₅.trans h₆)) (List.forall_mem_cons.2
      ⟨hk.mono h₆, fun x hx => (hindex' x (List.mem_of_mem_drop hx)).mono h₆⟩)
      (hright.mono (h₅.trans h₆))).bind fun t₇ r h₇ hr => .pure fun t' ht => ?_
    have hs' := hs (h₅.trans (h₆.trans (h₇.trans ht)))
    obtain ⟨name, s, hname, hget, -⟩ := (hk.mono (h₆.trans (h₇.trans ht))).symbolic
    cases hname
    exact .named hget hs' (List.forall_mem_singleton.2
      (.binary hs' (hl.mono (h₇.trans ht)) (hr.mono ht)))

theorem stays_pushReduce (hn : node.InScope t) :
    Stays view t (pushReduce node) fun t' e => e.InScope t' := by
  refine (stays_operands hn).bind fun t₁ p h₁ hp => (stays_operand hp.2).bind fun t₂ X h₂ hX =>
    (stays_elements p.1).bind fun t₃ index h₃ hindex =>
      (stays_shapeOf (hX.mono h₃)).bind fun t₄ shape h₄ hshape => ?_
  have hs : ∀ {t₅}, Extends t₄ t₅ → ∀ x ∈ node.shape.getD [], t₅.Scalar x :=
    fun h₅ => (hn.mono (h₁.trans (h₂.trans (h₃.trans (h₄.trans h₅))))).shape_getD
  split
  · exact stays_fault _
  · next bound rest =>
    refine (stays_index (hshape bound (.head _))).bind fun t₅ k h₅ hk => ?_
    refine (stays_indexed (hs h₅) (List.forall_mem_cons.2
      ⟨hk, fun x hx => (hindex x hx).mono (h₄.trans h₅)⟩)
      (hX.mono (h₃.trans (h₄.trans h₅)))).bind fun t₆ body h₆ hbody => .pure fun t' ht => ?_
    obtain ⟨name, s, hname, hget, -⟩ := (hk.mono (h₆.trans ht)).symbolic
    cases hname
    exact .named hget (hs (h₅.trans (h₆.trans ht))) (List.forall_mem_singleton.2 (hbody.mono ht))

/-- **Every rule stays in scope.** -/
theorem stays_apply (rule : Rule) (hn : node.InScope t) :
    Stays view t (rule.apply node) fun t' e => e.InScope t' := by
  unfold apply
  split
  · exact stays_pushAssign hn
  · exact stays_pushPsi hn
  · exact stays_pushTranspose hn
  · exact stays_pushPermute hn
  · exact stays_pushElementwise hn
  · exact stays_pushOuter _ hn
  · exact stays_pushInner _ _ hn
  · exact stays_pushReduce hn
  · exact .pure fun _ ht => hn.mono ht

theorem rewrite_scoped {c c' : Context} (hc : c.WellScoped) (h : rewrite c = .ok (some c')) :
    c'.WellScoped ∧ Extends c.table c'.table := by
  obtain ⟨rule, -, hrun⟩ := rewrite_ok.1 h
  exact hc.grow (stays_apply rule hc.tree) (Context.grow_ok.2 hrun)

/-! ## Rewriting everywhere -/

/-- In scope, over a larger table. -/
def ScopedFrom (c c' : Context) : Prop := Extends c.table c'.table ∧ c'.WellScoped

theorem threads_scoped {t t' : SymbolTable} {es es' : List Expr}
    (h : Traversal.Threads ScopedFrom t es es' t') (ht : t.Ordered) :
    Extends t t' ∧ t'.Ordered ∧ ∀ e ∈ es', e.InScope t' := by
  induction h with
  | nil => exact ⟨.refl _, ht, by simp⟩
  | cons hc _ ih =>
    obtain ⟨hg, ht', hes⟩ := ih hc.2.table
    exact ⟨hc.1.trans hg, ht', List.forall_mem_cons.2 ⟨hc.2.tree.mono hg, hes⟩⟩

theorem preserves_scope : Traversal.Preserves rewrite (fun t t' => Extends t t' ∧ t'.Ordered)
    Context.WellScoped ScopedFrom where
  refl hc := ⟨.refl _, hc⟩
  trans hab hbc := ⟨hab.1.trans hbc.1, hbc.2⟩
  grows h := ⟨h.1, h.2.table⟩
  mono hc hg := ⟨hc.tree.mono hg.1, hg.2⟩
  step hc h := by
    obtain ⟨hc', hg⟩ := rewrite_scoped hc h
    exact ⟨hc', hg, hc'⟩
  child hc _ he := ⟨hc.tree.children _ he, hc.table⟩
  node hc _ h := by
    obtain ⟨hg, ht, hes⟩ := threads_scoped h hc.table
    exact ⟨hg, (hc.tree.mono hg).withChildren hes, ht⟩

end Rule

/-! ## Seeds -/

namespace NormalForm

variable {t : SymbolTable}

theorem stays_freshIndices (shape : Shape) (hs : ∀ x ∈ shape, t.Scalar x) :
    Stays view t (freshIndices shape) fun t' indices => ∀ x ∈ indices, t'.Scalar x := by
  induction shape generalizing t with
  | nil => exact .pure fun _ _ => by simp
  | cons bound rest ih =>
    exact (stays_index (hs bound (.head _))).bind fun t₁ i h₁ hi =>
      (ih fun x hx => (hs x (.tail _ hx)).mono h₁).bind fun t₂ others h₂ hothers =>
        .pure fun t' ht => List.forall_mem_cons.2
          ⟨hi.mono (h₂.trans ht), fun x hx => (hothers x hx).mono ht⟩

theorem stays_seedRoot {tree : Expr} (h : tree.InScope t) :
    Stays view t (seedRoot tree) fun t' e => e.InScope t' := by
  unfold seedRoot
  split
  · exact .throw _
  · next shape hshape =>
    have hs := h.shape hshape
    exact (stays_freshIndices shape hs).bind fun t₁ indices h₁ hindices =>
      (stays_vector hindices).bind fun t₂ vector h₂ hvector => .pure fun t' ht =>
        .binary (fun x hx => (hs x hx).mono (h₁.trans (h₂.trans ht))) (hvector.mono ht)
          (h.mono (h₁.trans (h₂.trans ht)))

theorem stays_seed (tree : Expr) (h : tree.InScope t) :
    Stays view t (seed tree) fun t' e => e.InScope t' := by
  fun_induction seed tree with
  | case1 shape payload guard consequent rest ih =>
    have hguard : guard.InScope t := h.children guard (.head _)
    have hcons : consequent.InScope t := h.children consequent (.tail _ (.head _))
    exact (ih hcons).bind fun t₁ indexed h₁ hindexed => .pure fun t' ht =>
      .binary (hindexed.mono ht).shape_getD (hguard.mono (h₁.trans ht)) (hindexed.mono ht)
  | case2 => exact .throw _
  | case3 => exact .throw _
  | case4 tree => exact stays_seedRoot h

end NormalForm

/-- **Reduction keeps a context in scope.** -/
theorem Context.WellScoped.reduce {c r : Context} {limit : Nat} (hc : c.WellScoped)
    (h : c.reduce limit = .ok r) : r.WellScoped ∧ Extends c.table r.table := by
  obtain ⟨seeded, hseed, h⟩ := except_bind_ok.1 h
  obtain ⟨hseeded, hg⟩ := hc.grow (NormalForm.stays_seed c.tree hc.tree) hseed
  obtain ⟨hg', hr⟩ := Traversal.preorder_rel Rule.preserves_scope hseeded h
  exact ⟨hr, hg.trans hg'⟩

end PsiCalculus
