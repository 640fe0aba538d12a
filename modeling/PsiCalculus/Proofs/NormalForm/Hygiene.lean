import PsiCalculus.Proofs.NormalForm.FreeIndices
import PsiCalculus.Proofs.NormalForm.Scoping
import PsiCalculus.Proofs.Progress.Lowering
import PsiCalculus.Proofs.Source

/-!
# Hygiene of reduced trees

The indices that reduction binds are all different, also between siblings, and differ from the
seeded ones; every index is mentioned by the index vector of a psi, under the reduction that binds it
unless it is seeded; and each seeded index is mentioned somewhere.

* `Expr.PsiAt e binders v X`: `v psi X` stands in `e`, under reductions that bind `binders`.
* `Expr.Placed t e`: a leaf that mentions an index is the index vector of a psi.
* `Hygiene c c'`: what a traversal does to the bound indices and to the places of the others; the
  bound indices of `c'` that `c` does not bind are new to the table, so that siblings, which are
  traversed one after the other, bind different ones (`threads_hygiene`).
* `Context.reduce_hygienic`: index binding in a reduced tree is hygienic.
-/

namespace PsiCalculus

open SymbolTable

/-! ## Places of indexing -/

/-- `v psi X` stands in the tree, under reductions that bind the names, innermost first. -/
inductive Expr.PsiAt : Expr → List String → Expr → Expr → Prop
  | here {s : Option Shape} {p : Payload} {v X : Expr} : PsiAt (.node .psi s p [v, X]) [] v X
  | inside {op : Operator} {s : Option Shape} {p : Payload} {children : List Expr} {c v X : Expr}
      {binders : List String} : c ∈ children → PsiAt c binders v X →
      PsiAt (.node op s p children) (binders ++ ownBound op p) v X

namespace Expr

variable {t t' : SymbolTable} {e v X : Expr} {binders scope : List String}

theorem PsiAt.mem_operators (h : e.PsiAt binders v X) : .psi ∈ e.operators := by
  induction h with
  | here =>
    rw [operators]
    exact .head _
  | inside hc _ ih => exact operators_child hc ih

/-- The vector of a psi finds its indices in scope, or bound around the psi. -/
theorem Scoped.psiAt (h : e.Scoped t scope) (hat : e.PsiAt binders v X) :
    v.Scoped t (binders ++ scope) := by
  induction hat generalizing scope with
  | here => exact (scoped_node.1 h).2.2 _ (.head _)
  | inside hc _ ih =>
    rw [List.append_assoc]
    exact ih ((scoped_node.1 h).2.2 _ hc)

theorem Known.bound (h : e.Known t) : ∀ k ∈ e.boundIndices, k ∈ t.names := by
  induction e using Expr.induction_on_children with
  | node op shape payload children ih =>
    intro k hk
    rw [boundIndices_node, List.mem_append, boundIndicesAll_eq, List.mem_flatMap] at hk
    rcases hk with hk | ⟨c, hc, hk⟩
    · unfold ownBound at hk
      split at hk
      · exact List.mem_singleton.1 hk ▸ h.name
      · cases hk
    · exact ih c hc (h.child c hc) k hk

/-! ## Places of indices -/

/-- A leaf that mentions an index is the index vector of a psi. -/
inductive Placed (t : SymbolTable) : Expr → Prop
  | node {op : Operator} {s : Option Shape} {p : Payload} {children : List Expr} :
      (∀ k ∈ ownUses t op p, t.isIndex k = false) → (∀ c ∈ children, Placed t c) →
      Placed t (.node op s p children)
  | psi {s : Option Shape} {p : Payload} {v X : Expr} : v.op = .array → v.children = [] →
      Placed t X → Placed t (.node .psi s p [v, X])

theorem ownUses_not_index (hx : Extends t t') (ht : t.Sound) {op : Operator} {s : Option Shape}
    {p : Payload} {children : List Expr} (hk : (node op s p children).Known t)
    (h : ∀ k ∈ ownUses t op p, t.isIndex k = false) :
    ∀ k ∈ ownUses t' op p, t'.isIndex k = false := by
  intro k hmem
  rw [ownUses_extends hx hk] at hmem
  have huses := uses_names ht hk
  rw [uses, List.forall_mem_append] at huses
  rw [hx.isIndex_eq (huses.1 k hmem)]
  exact h k hmem

theorem Placed.mono (hx : Extends t t') (ht : t.Sound) (hk : e.Known t) (h : e.Placed t) :
    e.Placed t' := by
  induction h with
  | node hown _ ih =>
    exact .node (ownUses_not_index hx ht hk hown) fun c hc => ih c hc (hk.child c hc)
  | psi hop hchildren _ ih => exact .psi hop hchildren (ih (hk.child _ (.tail _ (.head _))))

/-- A tree that mentions no index. -/
theorem Placed.of_uses (h : ∀ k ∈ e.uses t, t.isIndex k = false) : e.Placed t := by
  induction e using Expr.induction_on_children with
  | node op shape payload children ih =>
    rw [uses, usesAll_eq, List.forall_mem_append, List.forall_mem_flatMap] at h
    exact .node h.1 fun c hc => ih c hc (h.2 c hc)

theorem Placed.binary {op : Operator} {s : Option Shape} {l r : Expr} (hl : l.Placed t)
    (hr : r.Placed t) : (Expr.binary op s l r).Placed t := by
  refine .node (by simp [ownUses_none]) fun c hc => ?_
  rcases List.mem_pair.1 hc with rfl | rfl
  · exact hl
  · exact hr

theorem Placed.fold {op : ArithOp} {s : Option Shape} {k : String} {body : Expr}
    (h : body.Placed t) : (Expr.node (.reduce op) s (.name k) [body]).Placed t :=
  .node (by simp [ownUses]) fun _ hc => List.mem_singleton.1 hc ▸ h

theorem uses_leaf (hop : v.op = .array) (hchildren : v.children = []) :
    v.uses t = Shape.names ((t.valueOf v).getD []) := by
  obtain ⟨op, shape, payload, children⟩ := v
  obtain rfl : op = .array := hop
  obtain rfl : children = [] := hchildren
  cases payload <;> simp [uses, usesAll, ownUses, valueOf, arrayName?, name?, Shape.names]

/-- An index that is mentioned is mentioned by the vector of a psi. -/
theorem Placed.exists_psiAt (h : e.Placed t) {k : String} (hk : k ∈ e.uses t)
    (hi : t.isIndex k = true) : ∃ binders v X values, e.PsiAt binders v X ∧
      t.valueOf v = some values ∧ k ∈ Shape.names values := by
  induction h with
  | node hown _ ih =>
    rw [uses, usesAll_eq, List.mem_append, List.mem_flatMap] at hk
    rcases hk with hk | ⟨c, hc, hk⟩
    · simp [hown k hk] at hi
    · obtain ⟨binders, v, X, values, hat, hvalues⟩ := ih c hc hk
      exact ⟨_, v, X, values, .inside hc hat, hvalues⟩
  | @psi s p v X hop hchildren _ ih =>
    have hown : ownUses t .psi p = [] := rfl
    rw [uses, hown, usesAll_eq, List.nil_append, List.mem_flatMap] at hk
    obtain ⟨c, hc, hk⟩ := hk
    rcases List.mem_pair.1 hc with rfl | rfl
    · rw [uses_leaf hop hchildren] at hk
      cases hvalue : t.valueOf c with
      | none => simp [hvalue, Shape.names] at hk
      | some values =>
        rw [hvalue, Option.getD_some] at hk
        exact ⟨[], c, X, values, .here, hvalue, hk⟩
    · obtain ⟨binders, v, X, values, hat, hvalues⟩ := ih hk
      exact ⟨_, v, X, values, .inside (.tail _ (.head _)) hat, hvalues⟩

end Expr

/-! ## One rewrite -/

section
variable {t₀ t t' : SymbolTable} {s : Option Shape} {v X e : Expr}

theorem Part.placed (h : Part t₀ e) (ht₀ : t₀.Declared) (hx : Extends t₀ t) : e.Placed t := by
  refine .of_uses fun k hk => ?_
  by_contra hi
  exact h.not_index ht₀ hx (by simpa using hi) hk

/-- Parts that are indexed by an index vector, or by a new one. -/
theorem IndexVector.placed {n : Nat} (hv : IndexVector t₀ t n v) (ht₀ : t₀.Declared)
    (hx : Extends t₀ t') (hX : Part t₀ X) : (Expr.binary .psi s v X).Placed t' := by
  cases hv with
  | part hp => exact (hp.placed ht₀ hx).binary (hX.placed ht₀ hx)
  | literal => exact .psi rfl rfl (hX.placed ht₀ hx)

theorem NewVector.placed {t₁ : SymbolTable} {elements : Shape} {u : Expr}
    (hu : NewVector t elements u t₁) (ht₀ : t₀.Declared) (hx : Extends t₀ t') (hX : Part t₀ X) :
    (Expr.binary .psi s u X).Placed t' := by
  obtain ⟨name, -, -, rfl⟩ := hu.exists_name
  exact .psi rfl rfl (hX.placed ht₀ hx)

theorem PushesOperand.placed {n : Nat} {t₁ t₂ : SymbolTable} (hv : IndexVector t₀ t n v)
    (ht₀ : t₀.Declared) (hx : Extends t₀ t') (hX : Part t₀ X) (h : PushesOperand t₁ s v X e t₂) :
    e.Placed t' := by
  cases h with
  | leaf => exact hX.placed ht₀ hx
  | scalar _ hu => exact hu.placed ht₀ hx hX
  | array => exact hv.placed ht₀ hx hX

/-- A rewrite mentions indices in index vectors only. -/
theorem Pushes.placed {n : Nat} (hv : IndexVector t₀ t n v) (ht₀ : t₀.Declared)
    (hx : Extends t₀ t') (hX : Part t₀ X) (h : Pushes t s v X e t') : e.Placed t' := by
  have hpart : ∀ {Y}, Y ∈ X.children → Part t₀ Y := fun hY => hX.child hY
  cases h with
  | assign =>
    exact (hv.placed ht₀ hx (hpart (.head _))).binary (hv.placed ht₀ hx (hpart (.tail _ (.head _))))
  | psi _ _ hu | permute _ _ _ hu => exact hu.placed ht₀ hx (hpart (.tail _ (.head _)))
  | transpose _ _ _ hu => exact hu.placed ht₀ hx (hpart (.head _))
  | elementwise _ hl hr =>
    exact (hl.placed hv ht₀ hx (hpart (.head _))).binary
      (hr.placed hv ht₀ hx (hpart (.tail _ (.head _))))
  | outer _ _ _ hu hw =>
    exact (hu.placed ht₀ hx (hpart (.head _))).binary (hw.placed ht₀ hx (hpart (.tail _ (.head _))))
  | inner _ _ _ _ _ hu hw =>
    exact .fold ((hu.placed ht₀ hx (hpart (.head _))).binary
      (hw.placed ht₀ hx (hpart (.tail _ (.head _)))))
  | reduce _ _ _ _ hu => exact .fold (hu.placed ht₀ hx (hpart (.head _)))

theorem NewVector.bound {elements : Shape} {u : Expr} (hu : NewVector t elements u t') :
    u.boundIndices = [] := by
  obtain ⟨name, -, -, rfl⟩ := hu.exists_name
  exact Expr.bound_array _ _

/-- A rewrite of a tree that binds nothing binds at most one index, a new one. -/
theorem Pushes.bound_eq (hv : v.boundIndices = []) (hX : X.boundIndices = [])
    (h : Pushes t s v X e t') :
    e.boundIndices = [] ∨ ∃ k, e.boundIndices = [k] ∧ t.get? k = none := by
  have hchild : ∀ {Y}, Y ∈ X.children → Y.boundIndices = [] := by
    obtain ⟨op, shape, payload, children⟩ := X
    rw [Expr.boundIndices_node, List.append_eq_nil_iff, Expr.boundIndicesAll_eq,
      List.flatMap_eq_nil_iff] at hX
    exact fun hY => hX.2 _ hY
  have hoperand : ∀ {Y Y' t₁ t₂}, Y ∈ X.children → PushesOperand t₁ s v Y Y' t₂ →
      Y'.boundIndices = [] := by
    intro Y Y' t₁ t₂ hY h
    cases h with
    | leaf => exact hchild hY
    | scalar _ hu => rw [Expr.bound_binary, hu.bound, hchild hY, List.append_nil]
    | array => rw [Expr.bound_binary, hv, hchild hY, List.append_nil]
  have hfold : ∀ {op : ArithOp} {k : String} {body : Expr},
      (Expr.node (.reduce op) s (.name k) [body]).boundIndices = k :: body.boundIndices := by
    intro op k body
    simp [Expr.boundIndices_node, Expr.boundIndicesAll, Expr.ownBound]
  cases h with
  | assign =>
    simp [Expr.bound_binary, hv, hchild (.head _), hchild (.tail _ (.head _))]
  | psi _ _ hu | permute _ _ _ hu =>
    simp [Expr.bound_binary, hu.bound, hchild (.tail _ (.head _))]
  | transpose _ _ _ hu => simp [Expr.bound_binary, hu.bound, hchild (.head _)]
  | elementwise _ hl hr =>
    simp [Expr.bound_binary, hoperand (.head _) hl, hoperand (.tail _ (.head _)) hr]
  | outer _ _ _ hu hw =>
    simp [Expr.bound_binary, hu.bound, hw.bound, hchild (.head _), hchild (.tail _ (.head _))]
  | inner _ _ _ _ hk hu hw =>
    refine .inr ⟨_, ?_, hk.fresh⟩
    simp [hfold, Expr.bound_binary, hu.bound, hw.bound, hchild (.head _), hchild (.tail _ (.head _))]
  | reduce _ _ _ hk hu =>
    refine .inr ⟨_, ?_, hk.fresh⟩
    simp [hfold, Expr.bound_binary, hu.bound, hchild (.head _)]

end

/-! ## The whole traversal -/

/-- A tree before and after a traversal that binds new indices and keeps the places of all. -/
structure Hygiene (c c' : Context) : Prop extends IndexRel c c' where
  /-- What was not bound before is new to the table. -/
  fresh : ∀ k ∈ c'.tree.boundIndices, k ∈ c.tree.boundIndices ∨ k ∉ c.table.names
  nodup : c.tree.boundIndices.Nodup → c'.tree.boundIndices.Nodup
  leaf : c.tree.op = .array → c.tree.children = [] → c'.tree = c.tree
  placed : c.tree.Placed c.table → c'.tree.Placed c'.table

theorem Hygiene.trans {a b c : Context} (h₁ : Hygiene a b) (h₂ : Hygiene b c) : Hygiene a c where
  toIndexRel := h₁.toIndexRel.trans h₂.toIndexRel
  fresh k hk := by
    rcases h₂.fresh k hk with hk | hk
    · exact h₁.fresh k hk
    · exact .inr fun hmem => hk (h₁.grows.entries.mem_names hmem)
  nodup h := h₂.nodup (h₁.nodup h)
  leaf hop hchildren := by
    have hb := h₁.leaf hop hchildren
    rw [h₂.leaf (by rw [hb, hop]) (by rw [hb, hchildren]), hb]
  placed h := h₂.placed (h₁.placed h)

section
variable {t₀ : SymbolTable}

theorem step_hygiene {c c' : Context} (hc : IndexInv t₀ c) (h : Rule.rewrite c = .ok (some c')) :
    IndexInv t₀ c' ∧ Hygiene c c' := by
  have hop := Rule.rewrite_op h
  obtain ⟨hinv, hrel⟩ := step_indices hc h
  obtain ⟨tree, t⟩ := c
  obtain ⟨s, v, X, shape, rfl, hv, -, hX⟩ := hc.tree.indexed hc.base.declared hop
  have hpushes := Rule.rewrite_psi h
  have hbound := hpushes.bound_eq hv.bound hX.bound
  refine ⟨hinv, hrel, fun k hk => ?_, fun _ => ?_, fun hop => (by cases hop), fun _ =>
    hpushes.placed hv hc.base.declared hinv.base.extends_base hX⟩
  · rcases hbound with hnil | ⟨k', hone, hnew⟩
    · rw [hnil] at hk
      cases hk
    · rw [hone, List.mem_singleton] at hk
      exact .inr (hk ▸ get?_eq_none_iff.1 hnew)
  · rcases hbound with hnil | ⟨k', hone, -⟩
    · rw [hnil]
      exact List.nodup_nil
    · rw [hone]
      exact List.nodup_singleton k'

/-- Siblings, one after the other: what the one binds is in the table when the other starts. -/
theorem threads_hygiene {t t' : SymbolTable} {es es' : List Expr}
    (h : Traversal.Threads Hygiene t es es' t') (ht : t.Sound) (hk : ∀ e ∈ es, e.Known t) :
    (∀ k ∈ Expr.boundIndicesAll es', k ∈ Expr.boundIndicesAll es ∨ k ∉ t.names) ∧
      ((Expr.boundIndicesAll es).Nodup → (Expr.boundIndicesAll es').Nodup) ∧
      List.Forall₂ (fun e e' => (e.op = .array → e.children = [] → e' = e) ∧
        (e.Known t → e.Placed t → e'.Placed t')) es es' := by
  induction h with
  | nil => exact ⟨by simp [Expr.boundIndicesAll], id, .nil⟩
  | @cons t t₁ t₂ e e' es es' hrel hrest ih =>
    have hg₁ : Grows t t₁ := hrel.grows
    have hsound₁ := hg₁.sound ht
    have hknown₁ : ∀ d ∈ es, d.Known t₁ := fun d hd => (hk d (.tail _ hd)).mono hg₁.entries
    obtain ⟨hg₂, -⟩ := threads_indices (hrest.imp (·.toIndexRel)) hsound₁ hknown₁
    obtain ⟨hfresh, hnodup, hplaced⟩ := ih hsound₁ hknown₁
    have hfirst : ∀ k ∈ e'.boundIndices, k ∈ e.boundIndices ∨ k ∉ t.names := hrel.fresh
    have hknown' : e'.Known t₁ := hrel.known
    have hold : ∀ k ∈ Expr.boundIndicesAll es, k ∈ t.names := by
      intro k hmem
      rw [Expr.boundIndicesAll_eq, List.mem_flatMap] at hmem
      obtain ⟨d, hd, hmem⟩ := hmem
      exact (hk d (.tail _ hd)).bound k hmem
    refine ⟨fun k hmem => ?_, fun hn => ?_, .cons ⟨hrel.leaf, fun _ hp => ?_⟩ ?_⟩
    · rw [Expr.boundIndicesAll, List.mem_append] at hmem ⊢
      rcases hmem with hmem | hmem
      · exact (hfirst k hmem).imp_left .inl
      · refine (hfresh k hmem).imp .inr fun hnew hmem => hnew (hg₁.entries.mem_names hmem)
    · rw [Expr.boundIndicesAll, List.nodup_append] at hn ⊢
      obtain ⟨hhead, htail, hdisjoint⟩ := hn
      refine ⟨hrel.nodup hhead, hnodup htail, ?_⟩
      rintro k hk₁ _ hk₂ rfl
      rcases hfresh k hk₂ with hes | hnew
      · -- of the old names of the rest, none is old in the first tree and none is new there
        rcases hfirst k hk₁ with he | hnew
        · exact hdisjoint k he k hes rfl
        · exact hnew (hold k hes)
      · exact hnew (hknown'.bound k hk₁)
    · exact (hrel.placed hp).mono hg₂.entries hsound₁ hknown'
    · exact hplaced.imp fun d d' h => ⟨h.1, fun hd hp =>
        h.2 (hd.mono hg₁.entries) (hp.mono hg₁.entries ht hd)⟩

theorem node_hygiene {c : Context} {es : List Expr} {t' : SymbolTable} (hc : IndexInv t₀ c)
    (h : Traversal.Threads Hygiene c.table c.tree.children es t') :
    Hygiene c ⟨c.tree.withChildren es, t'⟩ := by
  have hrel := node_indices hc (h.imp (·.toIndexRel))
  obtain ⟨⟨op, shape, payload, children⟩, t⟩ := c
  have hknown := hc.tree.known hc.base.extends_base
  obtain ⟨hfresh, hnodup, hplaced⟩ := threads_hygiene h hc.base.sound hknown.child
  have hown : ∀ k ∈ Expr.ownBound op payload, k ∈ t.names := by
    intro k hk
    refine hknown.bound k ?_
    rw [Expr.boundIndices_node]
    exact List.mem_append_left _ hk
  refine ⟨hrel, fun k hk => ?_, fun hn => ?_, fun hop hchildren => ?_, fun hp => ?_⟩
  all_goals simp only [Expr.withChildren, Expr.children_node] at *
  · rw [Expr.boundIndices_node, List.mem_append] at hk ⊢
    rcases hk with hk | hk
    · exact .inl (.inl hk)
    · exact (hfresh k hk).imp_left .inr
  · rw [Expr.boundIndices_node, List.nodup_append] at hn ⊢
    obtain ⟨hhead, htail, hdisjoint⟩ := hn
    refine ⟨hhead, hnodup htail, ?_⟩
    rintro k hk₁ _ hk₂ rfl
    rcases hfresh k hk₂ with hold | hnew
    · exact hdisjoint k hk₁ k hold rfl
    · exact hnew (hown k hk₁)
  · subst hchildren
    cases hplaced
    rfl
  · cases hp with
    | node huses hchildren =>
      refine .node (Expr.ownUses_not_index hrel.grows.entries hc.base.sound hknown huses)
        fun e' he' => ?_
      obtain ⟨e, he, -, hmoved⟩ := exists_of_mem_right hplaced he'
      exact hmoved (hknown.child e he) (hchildren e he)
    | psi hop hleaf hX =>
      cases hplaced with
      | cons hv hrest =>
        cases hrest with
        | cons hX' hnil =>
          cases hnil
          rw [hv.1 hop hleaf]
          exact .psi hop hleaf (hX'.2 (hknown.child _ (.tail _ (.head _))) hX)

/-- **Rewriting is hygienic**, at every node of the traversal. -/
theorem preserves_hygiene : Traversal.Preserves Rule.rewrite Grows (IndexInv t₀) Hygiene where
  refl hc := ⟨preserves_indices.refl hc, fun _ hk => .inl hk, id, fun _ _ => rfl, id⟩
  trans := .trans
  grows h := h.grows
  mono := preserves_indices.mono
  step := step_hygiene
  child := preserves_indices.child
  node hc _ h := node_hygiene hc h

end

/-! ## Guards -/

theorem Guards.bound {t : SymbolTable} {g : Expr} {cs : List Check} (h : Guards t g cs) :
    g.boundIndices = [] := by
  have hstands : ∀ {e x}, Stands t e x → e.boundIndices = [] := by
    intro e x hs
    cases hs <;> exact Expr.bound_array _ _
  induction h with
  | one hd =>
    cases hd with
    | compare hl hr => rw [Expr.bound_binary, hstands hl, hstands hr, List.append_nil]
  | and _ _ ihl ihr => rw [Expr.bound_binary, ihl, ihr, List.append_nil]

namespace Context.Reduced

variable {s r : Context} {shape : Shape}

/-- The tree is its expression under a guard for checks, or without one. -/
theorem tree_guarded (h : s.Reduced r shape) : r.tree = r.consequent ∨
    ∃ a p g cs, r.tree = .node .condition a p [g, r.consequent] ∧ Guards r.table g cs := by
  obtain ⟨checks, hguards, -⟩ := h.guards
  unfold Context.guard? at hguards
  unfold Context.consequent
  cases hsplit : Condition.split? r.tree with
  | none => exact .inl rfl
  | some pair =>
    obtain ⟨g, e⟩ := pair
    rw [hsplit] at hguards
    obtain ⟨⟨op, a, p, children⟩, t⟩ := r
    unfold Condition.split? at hsplit
    split at hsplit
    · next hop hchildren =>
      cases hop
      cases hchildren
      cases hsplit
      cases hguards with
      | cons hg => exact .inr ⟨a, p, g, _, rfl, hg⟩
    · cases hsplit

/-- A guard binds and indexes nothing. -/
theorem tree_cases (h : s.Reduced r shape) : r.tree = r.consequent ∨
    ∃ a p g, r.tree = .node .condition a p [g, r.consequent] ∧ g.boundIndices = [] ∧ g.Still := by
  rcases h.tree_guarded with heq | ⟨a, p, g, _, heq, hg⟩
  · exact .inl heq
  · exact .inr ⟨a, p, g, heq, hg.bound, hg.still⟩

theorem boundIndices_eq (h : s.Reduced r shape) :
    r.tree.boundIndices = r.consequent.boundIndices := by
  rcases h.tree_cases with heq | ⟨a, p, g, heq, hbound, -⟩
  · rw [heq]
  · rw [heq, Expr.boundIndices_node]
    simp [Expr.boundIndicesAll, Expr.ownBound, hbound]

theorem psiAt (h : s.Reduced r shape) {binders : List String} {v X : Expr}
    (hat : r.tree.PsiAt binders v X) : r.consequent.PsiAt binders v X := by
  rcases h.tree_cases with heq | ⟨a, p, g, heq, -, hstill⟩
  · rwa [heq] at hat
  · rw [heq] at hat
    cases hat with
    | @inside _ _ _ _ _ _ _ binders hc hat =>
      have hnil : binders ++ Expr.ownBound .condition p = binders := List.append_nil _
      rw [hnil]
      rcases List.mem_pair.1 hc with rfl | rfl
      · exact absurd hat.mem_operators hstill
      · exact hat

end Context.Reduced

/-! ## Reduced contexts -/

namespace Context

/-- The free indices of a tree are mentioned in it. -/
theorem mem_uses_of_freeIndices {c : Context} {indices : List String}
    (h : c.freeIndices = .ok indices) {name : String} (hn : name ∈ indices) :
    name ∈ c.tree.uses c.table := by
  obtain ⟨used, hused, hindices⟩ := except_bind_ok.1 h
  cases hindices
  obtain rfl := Expr.valueNames_ok hused
  obtain ⟨entry, hentry, rfl⟩ := List.mem_map.1 hn
  have hfree := (List.mem_filter.1 hentry).2
  simp only [Bool.and_eq_true, List.contains_iff_mem] at hfree
  exact hfree.1.2

/-- Reduction binds indices that differ among each other and from the seeds, and leaves indices to
index vectors. -/
theorem reduce_binders {c s r : Context} {limit : Nat} (hc : c.Raw) (hs : c.inferShapes = .ok s)
    (hr : s.reduce limit = .ok r) : s.consequent.shape = r.consequent.shape ∧
      (r.consequent.boundIndices ++ s.seeds).Nodup ∧ r.consequent.Placed r.table := by
  obtain ⟨e, cs, ds, hshaped⟩ := Context.inferShapes_ok hc hs
  have hpart := hshaped.infers.part
  have ho := hshaped.over hc.declared
  obtain rfl := hshaped.consequent_eq
  obtain ⟨shape, u, t₁, t₂, hseeded, hrel, -, -⟩ := Context.reduce_rel preserves_hygiene
    hpart.op_ne_condition hshaped.wrapped hr (fun h => h.indexInv ho hpart)
    (fun _ hrel => hrel.op_ne_condition (by simp [Expr.binary]))
  have hbase := (hseeded.indexInv ho hpart).base.extends_base
  have hbare : (Expr.binary .psi (some shape) u s.consequent).boundIndices = [] := by
    rw [Expr.bound_binary, hseeded.vector.bound, hpart.bound, List.append_nil]
  refine ⟨hseeded.shape_eq.trans hrel.shape.symm, ?_,
    hrel.placed (hseeded.vector.placed hc.declared hbase hpart)⟩
  refine List.nodup_append.2 ⟨hrel.nodup (by rw [hbare]; exact List.nodup_nil),
    hseeded.seeded.nodup, ?_⟩
  rintro k hk _ hseed rfl
  rcases hrel.fresh k hk with hold | hnew
  · rw [hbare] at hold
    cases hold
  · obtain ⟨bound, -, hget⟩ := exists_of_mem_right hseeded.seeded.get?.flip hseed
    have hx := (hseeded.vector.grows hseeded.seeded.index).1.entries
    exact hnew (mem_names_of_get? (hx.get? hget))

/-- **Index binding in a reduced tree is hygienic.** The bound and the seeded indices are all
different; an index in the vector of a psi is seeded or bound around the psi; every seeded index is
in the vector of some psi; and the free indices of the expression are the seeded ones, each over the
range of its axis. -/
theorem reduce_hygienic {source : String} {c s r : Context} {limit : Nat}
    (hc : Context.parse source = .ok c) (hs : c.inferShapes = .ok s)
    (hr : s.reduce limit = .ok r) :
    ∃ shape, s.consequent.shape = some shape ∧ r.consequent.shape = some shape ∧
      (r.tree.boundIndices ++ s.seeds).Nodup ∧
      (∀ binders v X values, r.tree.PsiAt binders v X → r.table.valueOf v = some values →
        ∀ name ∈ Shape.names values, r.table.isIndex name = true →
          name ∈ s.seeds ∨ name ∈ binders) ∧
      (∀ name ∈ s.seeds, ∃ binders v X values, r.consequent.PsiAt binders v X ∧
        r.table.valueOf v = some values ∧ name ∈ Shape.names values) ∧
      Context.freeIndices ⟨r.consequent, r.table⟩ = .ok s.seeds ∧
      List.Forall₂ (fun name bound => r.table.get? name = some (.index bound)) s.seeds shape := by
  have hraw := Context.parse_raw hc
  obtain ⟨shape, hred⟩ := Context.reduce_ok hraw hs hr
  obtain ⟨hshape, hnodup, hplaced⟩ := reduce_binders hraw hs hr
  have hfree : Context.freeIndices ⟨r.consequent, r.table⟩ = .ok s.seeds := by
    obtain ⟨indices, hindices⟩ := Context.freeIndices_run (c := ⟨r.consequent, r.table⟩) hred.known
    rw [hindices, hred.free (.refl _) hindices]
  refine ⟨shape, hshape.trans hred.root, hred.root, hred.boundIndices_eq ▸ hnodup, ?_, ?_, hfree,
    hred.seeds⟩
  · intro binders v X values hat hvalues name hn hi
    have hscoped := hred.in_scope.psiAt (hred.psiAt hat)
    obtain ⟨symbol, hsymbol, hvalue⟩ := Option.bind_eq_some_iff.1 hvalues
    obtain ⟨leaf, hleaf, hget⟩ := Option.bind_eq_some_iff.1 hsymbol
    have hmem := hscoped.value_names hleaf hget hvalue name hn hi
    exact (List.mem_append.1 hmem).symm
  · intro name hn
    obtain ⟨bound, -, hget⟩ := exists_of_mem_right hred.seeds.flip hn
    have hi : r.table.isIndex name = true := SymbolTable.isIndex_iff.2 ⟨_, hget, rfl⟩
    exact hplaced.exists_psiAt (mem_uses_of_freeIndices hfree hn) hi

/-- An outer sum of a matrix product and a reduced matrix, under a guard for the inner axes: the two
sides bind an index each. -/
theorem reduce_hygienic_product : ∃ c s r,
    Context.parse "(A ^ <n 3> +.* B ^ <m 2>) .+ (*red C ^ <2 k>)" = .ok c ∧
    c.inferShapes = .ok s ∧ s.reduce 100 = .ok r ∧ s.seeds.length = 3 ∧
    r.tree.boundIndices.length = 2 ∧ (r.tree.boundIndices ++ s.seeds).Nodup ∧
    Context.freeIndices ⟨r.consequent, r.table⟩ = .ok s.seeds ∧
    (∀ name ∈ s.seeds, ∃ binders v X values, r.consequent.PsiAt binders v X ∧
      r.table.valueOf v = some values ∧ name ∈ Shape.names values) := by
  have hrun : (do
      let c ← Context.parse "(A ^ <n 3> +.* B ^ <m 2>) .+ (*red C ^ <2 k>)"
      let s ← c.inferShapes
      let r ← s.reduce 100
      return (s.seeds.length, r.tree.boundIndices.length)) = .ok (3, 2) := by
    decide +kernel
  obtain ⟨c, hc, hrun⟩ := except_bind_ok.1 hrun
  obtain ⟨s, hs, hrun⟩ := except_bind_ok.1 hrun
  obtain ⟨r, hr, hrun⟩ := except_bind_ok.1 hrun
  simp only [pure, Except.pure, Except.ok.injEq, Prod.mk.injEq] at hrun
  obtain ⟨hseeds, hbound⟩ := hrun
  obtain ⟨shape, -, -, hnodup, -, hused, hfree, -⟩ := reduce_hygienic hc hs hr
  exact ⟨c, s, r, hc, hs, hr, hseeds, hbound, hnodup, hfree, hused⟩

end Context

end PsiCalculus
