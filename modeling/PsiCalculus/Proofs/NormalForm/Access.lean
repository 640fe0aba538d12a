import PsiCalculus.Proofs.NormalForm.Hygiene
import PsiCalculus.Proofs.NormalForm.Irreducible
import PsiCalculus.Proofs.NormalForm.Lengths

/-!
# Accesses within bounds

The indices that reduction starts with are within the axes of the tree. A rewrite moves the elements of
an index vector as the operator moves the axes of its operand, and an index that it binds is within
the axis that it runs over, so that what is within the axes of the whole is within those of the parts:
at the end, within the axes of the arrays that are read.

* `InBounds G t scope e`: indices on their way down in `e`, each within the axis it is for wherever
  `G` holds and the indices in scope, with those of the reductions above, are in their ranges.
* `Pushes.inBounds`: so it is after a rewrite; `preserves_bounds`: and after a traversal.
* `Context.reduce_in_bounds`: every access of a reduced tree is below the length of its axis.
-/

namespace PsiCalculus

open SymbolTable

/-- Indices on their way down: each element of an index vector is within the axis it is for, wherever
`G` holds and the indices in scope are in range. -/
inductive InBounds (G : (String → Int) → Prop) (t : SymbolTable) : List String → Expr → Prop
  | simple {scope : List String} {e : Expr} : Simple e → InBounds G t scope e
  | psi {scope : List String} {s a : Option Shape} {v : String} {index axes : Shape} {X : Expr} :
      t.get? v = some (.literal index) → Fits G t X axes →
      List.Forall₂ (Within G t scope) index axes →
      InBounds G t scope (.binary .psi s (.array v a) X)
  | arith {scope : List String} {op : ArithOp} {s : Option Shape} {l r : Expr} :
      InBounds G t scope l → InBounds G t scope r →
      InBounds G t scope (.binary (.arith op) s l r)
  | fold {scope : List String} {op : ArithOp} {s : Option Shape} {k : String} {body : Expr} :
      InBounds G t (k :: scope) body → InBounds G t scope (.node (.reduce op) s (.name k) [body])

/-! ## One rewrite -/

section
variable {G : (String → Int) → Prop} {t₀ t t' : SymbolTable} {scope : List String}
  {s a : Option Shape} {v : String} {index axes : Shape} {X e : Expr}

theorem InBounds.mono (hx : Extends t t') (h : InBounds G t scope e) : InBounds G t' scope e := by
  induction h with
  | simple he => exact .simple he
  | psi hv hX hindex =>
    exact .psi (hx.get? hv) (hX.mono hx) (Within.forall₂_mono hx (List.Subset.refl _) hindex)
  | arith _ _ ihl ihr => exact .arith ihl ihr
  | fold _ ih => exact .fold ih

theorem InBounds.op_ne_condition (h : InBounds G t scope e) : e.op ≠ .condition := by
  cases h with
  | simple he =>
    cases he with
    | leaf => simp [Expr.array]
    | query hop => rcases hop with rfl | rfl <;> simp [Expr.unary]
  | psi | arith | fold => simp [Expr.binary]

/-- An operand under a new index whose elements are within its axes. -/
theorem NewVector.inBounds {elements : Shape} {u : Expr} (h : NewVector t elements u t')
    (hx : Extends t₀ t) (hX : Fits G t₀ X axes)
    (hindex : List.Forall₂ (Within G t scope) elements axes) :
    InBounds G t' scope (.binary .psi s u X) := by
  obtain ⟨hx', name, rfl, hname⟩ := h.literal
  exact .psi hname (hX.mono (hx.trans hx')) (Within.forall₂_mono hx' (List.Subset.refl _) hindex)

/-- An operand of a pointwise operator is a scalar, or its axes are as long as those of the node. -/
theorem PushesOperand.inBounds {axes' : Shape} (hv : t.get? v = some (.literal index))
    (hindex : List.Forall₂ (Within G t scope) index axes) (hX : Fits G t X axes')
    (haxes : axes' = [] ∨ List.Forall₂ (Same G) axes axes')
    (h : PushesOperand t s (.array v a) X e t') : Extends t t' ∧ InBounds G t' scope e := by
  cases h with
  | leaf hop =>
    have hstuck : X.op.Stuck := by
      rw [hop]
      rfl
    exact ⟨.refl _, .simple (hX.accessed hstuck).simple⟩
  | scalar hshape hu =>
    cases hX.shape_eq.symm.trans hshape
    exact ⟨hu.literal.1, hu.inBounds (.refl _) hX .nil⟩
  | array hshape hne =>
    cases hX.shape_eq.symm.trans hshape
    exact ⟨.refl _, .psi hv hX (Within.forall₂_same hindex (haxes.resolve_left hne))⟩

/-- A new index that runs up to `m` is within `m`, where it is in scope. -/
theorem Within.entered {k : String} {m : Element} (hk : Adds t k (.index m) t') :
    Within G t' (k :: scope) (.named k) m :=
  .index hk.get?_self (.head _)

theorem Within.forall₂_entered {k : String} {m : Element} {is ns : Shape}
    (hk : Adds t k (.index m) t') (h : List.Forall₂ (Within G t scope) is ns) :
    List.Forall₂ (Within G t' (k :: scope)) is ns :=
  Within.forall₂_mono hk.grows (List.subset_cons_self _ _) h

/-- **A rewrite keeps indices within bounds.** -/
theorem Pushes.inBounds (hv : t.get? v = some (.literal index)) (hX : Fits G t X axes)
    (hindex : List.Forall₂ (Within G t scope) index axes)
    (h : Pushes t s (.array v a) X e t') : Extends t t' ∧ InBounds G t' scope e := by
  have hvalue : ∀ {index'}, t.valueOf (.array v a) = some index' → index' = index :=
    eq_of_valueOf_literal (.refl t) hv
  cases h with
  | assign =>
    cases hX with
    | access ha => cases ha
  | psi hfirst hsecond hu =>
    cases hvalue hsecond
    cases hX with
    | access ha => cases ha
    | psi hw hwithin hX =>
      cases eq_of_valueOf_literal (.refl t) hw hfirst
      have hwithin' := Within.forall₂_mono (.refl t) (List.nil_subset scope) hwithin
      exact ⟨hu.literal.1, hu.inBounds (.refl _) hX (List.rel_append hwithin' hindex)⟩
  | transpose hi _ _ hu =>
    cases hvalue hi
    cases hX with
    | access ha => cases ha
    | transpose hX =>
      refine ⟨hu.literal.1, hu.inBounds (.refl _) hX ?_⟩
      rwa [← List.forall₂_reverse_iff, List.reverse_reverse]
  | permute hi hplaces harranged hu =>
    cases hvalue hi
    cases hX with
    | access ha => cases ha
    | permute hp hints hlen hplace hX =>
      cases eq_of_valueOf_literal (.refl t) hp hplaces
      have hgathers := (Shape.arrange?_eq_some_iff hints).1 harranged
      obtain ⟨-, -, hitems⟩ := Shape.gathers_of_place? hlen hplace
      exact ⟨hu.literal.1, hu.inBounds (.refl _) hX (hgathers.rel hitems hindex)⟩
  | elementwise hop hl hr =>
    cases hX with
    | access ha => cases ha
    | arith hL hR ha hb =>
      obtain ⟨hx₁, hl'⟩ := hl.inBounds hv hindex hL ha
      have hindex₁ := Within.forall₂_mono hx₁ (List.Subset.refl scope) hindex
      obtain ⟨hx₂, hr'⟩ := hr.inBounds (hx₁.get? hv) hindex₁ (hR.mono hx₁) hb
      exact ⟨hx₁.trans hx₂, .arith (hl'.mono hx₂) hr'⟩
    | permute | psi | outer | inner => cases hop
  | outer hi hshape _ hu hw =>
    cases hvalue hi
    cases hX with
    | access ha => cases ha
    | outer hL hR =>
      cases hL.shape_eq.symm.trans hshape
      have hx₁ := hu.literal.1
      have hx₂ := hw.literal.1
      have hleft := List.forall₂_take_append _ _ _ hindex
      have hright := Within.forall₂_mono hx₁ (List.Subset.refl scope)
        (List.forall₂_drop_append _ _ _ hindex)
      exact ⟨hx₁.trans hx₂, .arith ((hu.inBounds (.refl _) hL hleft).mono hx₂)
        (hw.inBounds hx₁ hR hright)⟩
  | inner hi hshape _ _ hk hu hw =>
    cases hvalue hi
    cases hX with
    | access ha => cases ha
    | inner hL hR hmn =>
      have haxes := Option.some.inj (hL.shape_eq.symm.trans hshape)
      obtain ⟨rfl, hm⟩ := List.append_inj' haxes rfl
      cases hm
      have hx₁ := hk.grows
      have hx₂ := hu.literal.1
      have hx₃ := hw.literal.1
      have hleft := Within.forall₂_entered hk (List.forall₂_take_append _ _ _ hindex)
      have hright := Within.forall₂_entered hk (List.forall₂_drop_append _ _ _ hindex)
      refine ⟨hx₁.trans (hx₂.trans hx₃), .fold (.arith ((hu.inBounds hx₁ hL ?_).mono hx₃)
        (hw.inBounds (hx₁.trans hx₂) hR ?_))⟩
      · exact List.rel_append hleft (.cons (.entered hk) .nil)
      · exact Within.forall₂_mono hx₂ (List.Subset.refl _)
          (.cons ((Within.entered hk).same hmn) hright)
  | reduce hi hshape _ hk hu =>
    cases hvalue hi
    cases hX with
    | access ha => cases ha
    | reduce hX =>
      cases hX.shape_eq.symm.trans hshape
      have hx₁ := hk.grows
      have hx₂ := hu.literal.1
      exact ⟨hx₁.trans hx₂, .fold (hu.inBounds hx₁ hX
        (.cons (.entered hk) (Within.forall₂_entered hk hindex)))⟩

end

/-! ## The traversal -/

/-- A node before and after a traversal that keeps its indices within bounds. -/
structure KeepsBounds (G : (String → Int) → Prop) (c c' : Context) : Prop where
  extends_table : Extends c.table c'.table
  simple : Simple c.tree → c'.tree = c.tree
  inBounds : ∀ {scope}, InBounds G c.table scope c.tree → InBounds G c'.table scope c'.tree

section
variable {G : (String → Int) → Prop} {t t' : SymbolTable} {scope : List String} {e d : Expr}

theorem InBounds.step {c c' : Context} (h : InBounds G c.table scope c.tree)
    (hr : Rule.rewrite c = .ok (some c')) :
    Extends c.table c'.table ∧ InBounds G c'.table scope c'.tree := by
  have hop := Rule.rewrite_op hr
  obtain ⟨tree, table⟩ := c
  cases h with
  | simple he => exact absurd hop he.op_ne_psi
  | psi hv hX hindex => exact (Rule.rewrite_psi hr).inBounds hv hX hindex
  | arith | fold => cases hop

/-- Operands of a node that no rule is about. -/
theorem InBounds.child (h : InBounds G t scope e) (hnone : Rule.find? e = none)
    (hd : d ∈ e.children) : InBounds G t (Expr.ownBound e.op e.payload ++ scope) d := by
  cases h with
  | simple he => exact .simple (he.child hd).1
  | psi _ hX =>
    rw [Rule.find?_psi] at hnone
    rcases List.mem_pair.1 hd with rfl | rfl
    · exact .simple .leaf
    · exact .simple (hX.accessed hnone).simple
  | arith hl hr =>
    rcases List.mem_pair.1 hd with rfl | rfl
    · exact hl
    · exact hr
  | fold hbody =>
    cases List.mem_singleton.1 hd
    exact hbody

/-- A node that no rule is about, over operands that were traversed. -/
theorem InBounds.node {es : List Expr} (h : InBounds G t scope e) (hnone : Rule.find? e = none)
    (hthreads : Traversal.Threads (KeepsBounds G) t e.children es t') :
    InBounds G t' scope (e.withChildren es) := by
  have hx := hthreads.extends_table KeepsBounds.extends_table
  cases h with
  | simple he => exact (he.spared KeepsBounds.simple hthreads).symm ▸ .simple he
  | psi hv hX hindex =>
    rw [Rule.find?_psi] at hnone
    obtain ⟨v', X', t₁, rfl, hvector, hoperand⟩ := hthreads.two
    have hv' : v' = _ := hvector.simple .leaf
    have hX' : X' = _ := hoperand.simple (hX.accessed hnone).simple
    rw [hv', hX']
    exact (InBounds.psi hv hX hindex).mono hx
  | arith hl hr =>
    obtain ⟨l', r', t₁, rfl, hleft, hright⟩ := hthreads.two
    exact .arith ((hleft.inBounds hl).mono hright.extends_table)
      (hright.inBounds (hr.mono hleft.extends_table))
  | fold hbody =>
    obtain ⟨body', rfl, hrel⟩ := hthreads.one
    exact .fold (hrel.inBounds hbody)

/-- **Rewriting keeps indices within bounds**, at every node of the traversal. -/
theorem preserves_bounds : Traversal.Preserves Rule.rewrite Extends
    (fun c => ∃ scope, InBounds G c.table scope c.tree) (KeepsBounds G) where
  refl _ := ⟨.refl _, fun _ => rfl, id⟩
  trans h₁ h₂ := by
    refine ⟨h₁.extends_table.trans h₂.extends_table, fun hs => ?_,
      fun h => h₂.inBounds (h₁.inBounds h)⟩
    have hb := h₁.simple hs
    rw [h₂.simple (hb ▸ hs), hb]
  grows h := h.extends_table
  mono h hx := by
    obtain ⟨scope, h⟩ := h
    exact ⟨scope, h.mono hx⟩
  step h hr := by
    obtain ⟨scope, h⟩ := h
    exact ⟨⟨scope, (h.step hr).2⟩, (h.step hr).1,
      fun hs => absurd (Rule.rewrite_op hr) hs.op_ne_psi, fun h => (h.step hr).2⟩
  child h hnone hd := by
    obtain ⟨scope, h⟩ := h
    exact ⟨_, h.child (Rule.rewrite_none.1 hnone) hd⟩
  node h hnone hthreads := by
    obtain ⟨scope, h⟩ := h
    exact ⟨hthreads.extends_table KeepsBounds.extends_table,
      fun hs => hs.spared KeepsBounds.simple hthreads,
      fun h => h.node (Rule.rewrite_none.1 hnone) hthreads⟩

/-! ## Reduced trees -/

/-- An index that cannot be pushed further is within the axes of what is read. -/
theorem InBounds.psiAt {binders : List String} {v X : Expr} (h : InBounds G t scope e)
    (he : e.Irreducible) (hat : e.PsiAt binders v X) :
    ∃ index axes, t.valueOf v = some index ∧ Accessed t X axes ∧
      List.Forall₂ (Within G t (binders ++ scope)) index axes := by
  induction hat generalizing scope with
  | here =>
    have hstuck := he.find?
    rw [Rule.find?_pair] at hstuck
    cases h with
    | simple hs => exact absurd rfl hs.op_ne_psi
    | psi hv hX hindex => exact ⟨_, _, valueOf_literal (.refl t) hv, hX.accessed hstuck, hindex⟩
  | inside hc _ ih =>
    rw [List.append_assoc]
    exact ih (h.child he.find? hc) (he.child hc)

/-- Seeded indices are within the axes of the tree. -/
theorem Context.SeededTree.inBounds {s : Context} {shape axes : Shape} {u : Expr}
    {t₁ t₂ : SymbolTable} (h : s.SeededTree e shape u t₁ t₂) (hx : Extends t s.table)
    (he : Fits G t e axes) : InBounds G t₂ s.seeds (.binary .psi (some shape) u e) := by
  cases he.shape_eq.symm.trans h.shape_eq
  refine h.vector.inBounds (hx.trans h.seeded.extends_table) he ?_
  obtain ⟨hlength, hget⟩ := List.forall₂_iff_zip.1 h.seeded.get?
  rw [List.forall₂_map_left_iff]
  exact List.forall₂_iff_zip.2 ⟨hlength, fun hmem => .index (hget hmem) (List.of_mem_zip hmem).1⟩

end

namespace Context

theorem Reduced.irreducible {s r : Context} {shape : Shape} {limit : Nat} (h : s.Reduced r shape)
    (hr : s.reduce limit = .ok r) : r.consequent.Irreducible := by
  obtain ⟨c₁, -, hnormalize⟩ := except_bind_ok.1 hr
  have htree := normalize_irreducible hnormalize
  rcases h.tree_cases with heq | ⟨a, p, g, heq, -⟩
  · rwa [← heq]
  · rw [heq] at htree
    exact htree.child (.tail _ (.head _))

/-- **Every access of a reduced tree is within bounds.** A psi that is left in the reduced tree of a
source in the fragment indexes an array, its shape or its rank with exactly one element for each axis.
Wherever the guard holds and the indices in scope are in the ranges of the table, each element is below
the length of its axis, and not negative unless it is a name of the user. -/
theorem reduce_in_bounds {source : String} {limit : Nat} {c s r : Context}
    (hc : Context.parse source = .ok c) (hfrag : c.tree.inFragment = true)
    (hs : c.inferShapes = .ok s) (hr : s.reduce limit = .ok r) {binders : List String} {v X : Expr}
    (hat : r.tree.PsiAt binders v X) :
    ∃ index axes, r.table.valueOf v = some index ∧ Accessed r.table X axes ∧
      index.length = axes.length ∧
      ∀ σ, r.guardTest (.ofValuation σ) = some true →
        (∀ k ∈ binders ++ s.seeds, r.table.Ranges σ k) →
        List.Forall₂ (Element.Inside σ) index axes := by
  have hraw := Context.parse_raw hc
  obtain ⟨e, cs, ds, hshaped⟩ := Context.inferShapes_ok hraw hs
  obtain ⟨shape, hred⟩ := Context.reduce_ok hraw hs hr
  have hop := hshaped.infers.part.op_ne_condition
  let G (σ : String → Int) : Prop := ∀ d ∈ cs, d.Holds (.ofValuation σ)
  obtain ⟨axes, hfits⟩ := hshaped.infers.fits (G := G) hraw.declared (Context.parse_natural hc)
    (fun _ h => h) hfrag
  have hx := hshaped.grows.grows.entries
  obtain ⟨shape', u, t₁, t₂, hseeded, hrel, hguard, -⟩ := Context.reduce_rel
    (preserves_bounds (G := G)) hop hshaped.wrapped hr (fun h => ⟨_, h.inBounds hx hfits⟩)
    (fun h hrel => (hrel.inBounds (h.inBounds hx hfits)).op_ne_condition)
  have hbounds := hrel.inBounds (hseeded.inBounds hx hfits)
  obtain ⟨index, axes, hvalue, haccess, hwithin⟩ :=
    hbounds.psiAt (hred.irreducible hr) (hred.psiAt hat)
  refine ⟨index, axes, hvalue, haccess, hwithin.length_eq, fun σ hσ hscope => ?_⟩
  have hchecks : ∀ d ∈ cs, d.Holds (.ofValuation σ) := by
    have hguards := (hshaped.wrapped.guards hop).mono hred.grows.entries
    rw [guardTest, hguard] at hσ
    exact (hshaped.equally σ).1 ((hguards.test_iff _).1 hσ)
  exact hwithin.imp fun _ _ h => h σ hchecks hscope

/-- A row of a transposed product, at the last place of each axis. The index of the reduction runs up
to `3`, which the guard makes the length `m` of the axis that it reads. -/
theorem reduce_in_bounds_row : ∃ c s r v X,
    Context.parse "<k> psi (tran (A ^ <n 3> +.* B ^ <m 2>))" = .ok c ∧
    c.inferShapes = .ok s ∧ s.reduce 100 = .ok r ∧ r.tree.PsiAt ["_i12"] v X ∧
    r.table.valueOf v = some [.named "_i12", .named "k"] ∧
    Accessed r.table X [.named "m", .int 2] ∧
    let σ : String → Int := fun name => if name = "n" then 4 else if name = "k" then 1 else
      if name = "_i12" then 2 else 3
    r.guardTest (.ofValuation σ) = some true ∧
    List.Forall₂ (Element.Inside σ) [.named "_i12", .named "k"] [.named "m", .int 2] := by
  let σ : String → Int := fun name => if name = "n" then 4 else if name = "k" then 1 else
    if name = "_i12" then 2 else 3
  let scalar (name : String) : Expr := .array name (some [])
  let vector (name : String) : Expr := .array name (some [.int 2])
  let row : Option Shape := some [.named "n"]
  let guard : Expr := .binary (.logic .and) (some [])
    (.binary (.compare .equal) (some []) (scalar "_a6") (scalar "m"))
    (.binary (.compare .less) (some []) (scalar "k") (scalar "_a7"))
  let body : Expr := .binary (.arith .times) row
    (.binary .psi row (vector "_a13") (.array "A" (some [.named "n", .int 3])))
    (.binary .psi row (vector "_a14") (.array "B" (some [.named "m", .int 2])))
  let tree : Expr := .binary .condition row guard (.node (.reduce .plus) row (.name "_i12") [body])
  let index : Shape := [.named "_i12", .named "k"]
  have hrun : (do
      let c ← Context.parse "<k> psi (tran (A ^ <n 3> +.* B ^ <m 2>))"
      let s ← c.inferShapes
      let r ← s.reduce 100
      return decide (c.tree.inFragment = true ∧ s.seeds = ["_i8"] ∧ r.tree = tree ∧
        r.table.valueOf (vector "_a14") = some index ∧
        r.table.get? "_i12" = some (Symbol.index (.int 3)) ∧
        r.table.get? "_i8" = some (Symbol.index (.named "n")) ∧
        r.guardTest (.ofValuation σ) = some true)) = .ok true := by
    decide +kernel
  obtain ⟨c, hc, hrun⟩ := except_bind_ok.1 hrun
  obtain ⟨s, hs, hrun⟩ := except_bind_ok.1 hrun
  obtain ⟨r, hr, hrun⟩ := except_bind_ok.1 hrun
  simp only [pure, Except.pure, Except.ok.injEq, decide_eq_true_eq] at hrun
  obtain ⟨hfrag, hseeds, htree, hvalue, hinner, houter, hguard⟩ := hrun
  have hat : r.tree.PsiAt ["_i12"] (vector "_a14") (.array "B" (some [.named "m", .int 2])) := by
    rw [htree]
    exact .inside (.tail _ (.head _)) (.inside (.head _) (.inside (.tail _ (.head _)) .here))
  have hranges : ∀ k ∈ ["_i12"] ++ s.seeds, r.table.Ranges σ k := by
    intro k hk bound hbound
    rw [hseeds] at hk
    rcases List.mem_pair.1 hk with rfl | rfl
    · cases hinner.symm.trans hbound
      decide
    · cases houter.symm.trans hbound
      decide
  obtain ⟨index', axes, hindex, haccess, -, hinside⟩ := reduce_in_bounds hc hfrag hs hr hat
  obtain rfl : index = index' := Option.some.inj (hvalue.symm.trans hindex)
  cases haccess with
  | array hget hshape =>
    exact ⟨c, s, r, _, _, hc, hs, hr, hat, hvalue, .array hget hshape, hguard,
      hinside σ hguard hranges⟩

end Context

end PsiCalculus
