import PsiCalculus.Proofs.NormalForm.Preservation
import Mathlib.Algebra.Ring.Int.Defs

/-!
# The meaning of the normal form

Every cell of the array that a shaped tree denotes is the value of the reduced tree, with the seeded
indices set to the multi-index of the cell.

* `preserves_meaning`: rewriting keeps the value of the tree that is visited, node by node.
* `Context.reduce_meaning`: the whole reduction does.
-/

namespace PsiCalculus

open SymbolTable

/-! ## Traversal -/

section
variable {V : Type} {D : Domain V} {t₀ : SymbolTable} {m₀ : Memory V}

/-- A tree on the way: indexed parts, or nothing that a rule is about. -/
structure MeaningInv (D : Domain V) (t₀ : SymbolTable) (m₀ : Memory V) (c : Context) : Prop where
  underway : Underway t₀ m₀ c.table
  tree : Indexed D t₀ m₀ c.table c.tree ∨ c.tree.Still

/-- A tree with indexed parts keeps its value, and one that no rule is about stays. -/
structure MeaningRel (D : Domain V) (t₀ : SymbolTable) (m₀ : Memory V) (c c' : Context) : Prop where
  grows : Grows c.table c'.table
  still : c.tree.Still → c' = c
  kept : Underway t₀ m₀ c.table → Indexed D t₀ m₀ c.table c.tree →
    Kept D t₀ m₀ c.table c'.tree c'.table fun m => eval D c.table m c.tree

theorem MeaningRel.refl (c : Context) : MeaningRel D t₀ m₀ c c :=
  ⟨.refl _, fun _ => rfl, fun _ hi => ⟨.refl _, hi, fun _ _ _ => rfl⟩⟩

theorem MeaningRel.trans {a b c : Context} (h₁ : MeaningRel D t₀ m₀ a b)
    (h₂ : MeaningRel D t₀ m₀ b c) : MeaningRel D t₀ m₀ a c := by
  refine ⟨h₁.grows.trans h₂.grows, fun hs => ?_, fun hu hi => ?_⟩
  · obtain rfl := h₁.still hs
    exact h₂.still hs
  · have hk₁ := h₁.kept hu hi
    have hk₂ := h₂.kept (hu.grow h₁.grows) hk₁.indexed
    exact ⟨h₁.grows.trans h₂.grows, hk₂.indexed,
      fun m hm htot => (hk₂.eval m hm htot).trans (hk₁.eval m hm htot)⟩

/-- What no rule is about is not indexed, or indexes a leaf or the shape or rank of one. -/
theorem Meant.still_of_rewrite {e : Expr} {T : Tensor V} (h : Meant D t₀ m₀ e T)
    (hr : Rule.ruleFor? e.op = none) : e.Still := by
  cases h with
  | literal | user => exact .array _ _
  | shape | dim =>
    simp [Expr.Still, Expr.unary, Expr.array, Expr.operators, Expr.operatorsAll]
  | transpose | permute | psi | arith | outer | inner | reduce => cases hr

theorem step_meaning {c c' : Context} (hc : MeaningInv D t₀ m₀ c)
    (h : Rule.rewrite c = .ok (some c')) : MeaningInv D t₀ m₀ c' ∧ MeaningRel D t₀ m₀ c c' := by
  obtain ⟨rule, hrule, -⟩ := Rule.rewrite_ok.1 h
  have hmoves : ¬ c.tree.Still := fun hs => by simp [hs.find?] at hrule
  obtain ⟨tree, t⟩ := c
  rcases hc.tree with hi | hs
  · cases hi with
    | psi hv hlen hX =>
      have hk := (Rule.rewrite_psi h).kept hc.underway hv hlen hX
      refine ⟨⟨hc.underway.grow hk.grows, .inl hk.indexed⟩,
        ⟨hk.grows, fun hs => absurd hs hmoves, fun hu _ => hk.congr fun m hm htot => ?_⟩⟩
      exact (eval_psi hu.declared hu.total hu.extends_base hu.sound hv hX hm htot).symm
    | leaf | arith | reduce =>
      rw [Rule.find?_other (by simp)] at hrule
      cases hrule
  · exact absurd hs hmoves

theorem child_meaning {c : Context} {e : Expr} (hc : MeaningInv D t₀ m₀ c)
    (h : Rule.rewrite c = .ok none) (he : e ∈ c.tree.children) :
    MeaningInv D t₀ m₀ ⟨e, c.table⟩ := by
  refine ⟨hc.underway, ?_⟩
  obtain ⟨tree, t⟩ := c
  rcases hc.tree with hi | hs
  · cases hi with
    | psi _ _ hX =>
      rcases List.mem_pair.1 he with rfl | rfl
      · exact .inr (.array _ _)
      · exact .inr (hX.still_of_rewrite (Rule.rewrite_psi_none.1 h))
    | leaf => cases he
    | arith hl hr =>
      rcases List.mem_pair.1 he with rfl | rfl
      · exact .inl hl
      · exact .inl hr
    | reduce _ _ hb =>
      obtain rfl := List.mem_singleton.1 he
      exact .inl hb
  · exact .inr (hs.child he)

theorem threads_still {t t' : SymbolTable} {es es' : List Expr}
    (h : Traversal.Threads (MeaningRel D t₀ m₀) t es es' t') (hs : ∀ e ∈ es, e.Still) :
    es' = es ∧ t' = t := by
  induction h with
  | nil => exact ⟨rfl, rfl⟩
  | cons hc _ ih =>
    cases hc.still (hs _ (.head _))
    obtain ⟨rfl, rfl⟩ := ih fun e he => hs e (.tail _ he)
    exact ⟨rfl, rfl⟩

theorem threads_grows {t t' : SymbolTable} {es es' : List Expr}
    (h : Traversal.Threads (MeaningRel D t₀ m₀) t es es' t') : Grows t t' := by
  induction h with
  | nil => exact .refl _
  | cons hc _ ih => exact hc.grows.trans ih

theorem node_meaning {c : Context} {es : List Expr} {t' : SymbolTable} (hc : MeaningInv D t₀ m₀ c)
    (h : Rule.rewrite c = .ok none)
    (hth : Traversal.Threads (MeaningRel D t₀ m₀) c.table c.tree.children es t') :
    MeaningRel D t₀ m₀ c ⟨c.tree.withChildren es, t'⟩ := by
  have hsame : (∀ e ∈ c.tree.children, e.Still) → (⟨c.tree.withChildren es, t'⟩ : Context) = c := by
    intro hs
    obtain ⟨rfl, rfl⟩ := threads_still hth hs
    obtain ⟨⟨op, shape, payload, children⟩, t⟩ := c
    rfl
  refine ⟨threads_grows hth, fun hs => hsame fun e he => hs.child he, fun hu hi => ?_⟩
  obtain ⟨tree, t⟩ := c
  cases hi with
  | psi hv hlen hX =>
    rw [hsame (by
      simp only [Expr.children_node, List.mem_cons, List.not_mem_nil, or_false, forall_eq_or_imp,
        forall_eq]
      exact ⟨.array _ _, hX.still_of_rewrite (Rule.rewrite_psi_none.1 h)⟩)]
    exact (MeaningRel.refl _).kept hu (.psi hv hlen hX)
  | leaf hT =>
    rw [hsame (by simp)]
    exact (MeaningRel.refl _).kept hu (.leaf hT)
  | @arith op s l r hl hr =>
    -- the right operand is visited over the table that the left one leaves
    simp only [Expr.children_node] at hth
    cases hth with
    | cons h₁ hth =>
      cases hth with
      | cons h₂ hth =>
        cases hth
        have hk₁ := h₁.kept hu hl
        have hk₂ := h₂.kept (hu.grow h₁.grows) (hr.mono h₁.grows.entries)
        refine (hk₁.arith hu hk₂).congr fun m _ _ => ?_
        rw [eval_extends h₁.grows.entries m r (hr.known hu.extends_base), eval]
  | @reduce op s k bound body hg hk hb =>
    simp only [Expr.children_node] at hth
    cases hth with
    | cons h₁ hth =>
      cases hth
      have hk₁ := h₁.kept hu hb
      refine ⟨h₁.grows, .reduce hg (h₁.grows.entries.get? hk) hk₁.indexed, fun m hm htot => ?_⟩
      have hrange : m.range t' k = m.range t k := by
        unfold Memory.range
        rw [h₁.grows.entries.get? hk, hk]
      simp only [Expr.withChildren]
      rw [eval, eval, hrange]
      refine congrArg (Option.bind (m.range t k)) (funext fun is => ?_)
      exact foldOver_congr fun i _ => hk₁.eval _ (hm.bind hg i) (Memory.total_bind htot k i)

/-- **Rewriting keeps the value**, at every node of the traversal. -/
theorem preserves_meaning :
    Traversal.Preserves Rule.rewrite Grows (MeaningInv D t₀ m₀) (MeaningRel D t₀ m₀) where
  refl _ := .refl _
  trans := .trans
  grows h := h.grows
  mono h hg := ⟨h.underway.grow hg, h.tree.imp_left (·.mono hg.entries)⟩
  step := step_meaning
  child := child_meaning
  node := node_meaning

/-! ## Seeded indices -/

theorem Memory.bindAll_sameUser {m : Memory V} {names : List String} {x : List Int}
    (hn : ∀ name ∈ names, isGenerated name = true) : m.SameUser (m.bindAll names x) := by
  refine ⟨Memory.bindAll_array m names x, fun name hu => Memory.bindAll_other fun hmem => ?_⟩
  simp [hn name hmem] at hu

theorem Memory.bindAll_total {m : Memory V} (hm : m.env.Total) (names : List String)
    (x : List Int) : (m.bindAll names x).env.Total := by
  fun_induction Memory.bindAll m names x with
  | case1 m name names i is ih => exact ih (Memory.total_bind hm name i)
  | case2 => exact hm

end

/-- **Reduction preserves meaning.** Over any domain and for any contents of the user's arrays, under
a valuation that makes the guard true, the shaped tree denotes an array of the shape that it carries,
and the cell of the array at each multi-index is the value of the reduced tree with the seeded indices
set to the multi-index. -/
theorem Context.reduce_meaning {source : String} {limit : Nat} {c s r : Context}
    (hc : Context.parse source = .ok c) (hfrag : c.tree.inFragment = true)
    (hs : c.inferShapes = .ok s) (hr : s.reduce limit = .ok r) {V : Type} (D : Domain V)
    (σ : String → Int) (arrays : String → Option (Tensor V))
    (hconf : (Memory.ofValuation σ arrays).Conforms s.table)
    (hguard : s.guardTest (.ofValuation σ) = some true) :
    ∃ T : Tensor V,
      denote D s.table (.ofValuation σ arrays) s.consequent = some T ∧
      s.consequent.shape.bind (Env.ofValuation σ).elements = some T.shape ∧
      ∀ x, InRange x T.shape →
        eval D r.table ((Memory.ofValuation σ arrays).bindAll s.seeds x) r.consequent = T.cell x := by
  have hraw := Context.parse_raw hc
  obtain ⟨e, cs, ds, hshaped⟩ := Context.inferShapes_ok hraw hs
  let m : Memory V := .ofValuation σ arrays
  have htot : m.env.Total := fun _ => rfl
  have hx := hshaped.grows.grows.entries
  have hchecks : ∀ d ∈ cs, d.Holds m.env :=
    (hshaped.equally σ).1 ((hshaped.guardTest_iff _).1 hguard)
  obtain ⟨T, hT⟩ := hshaped.infers.meant (D := D) hraw.declared htot
    (fun name shape hn => hconf name shape (hx.get? hn)) hchecks hfrag
  have hunder : Underway c.table m s.table :=
    ⟨hraw.declared, htot, hx, hshaped.grows.grows.sound hraw.declared.sound⟩
  obtain ⟨shape, hshape, hsized⟩ := hT.exists_sized
  have hdims : ∀ x ∈ shape, s.table.Dimension x := fun x hmem => (hsized.dimension x hmem).mono hx
  have hseed : ∀ {shape' u t₁ t₂}, s.SeededTree e shape' u t₁ t₂ → shape' = shape ∧
      Underway c.table m t₂ ∧ ∃ v, u = .array v (some [.int (s.seeds.map Element.named).length]) ∧
        t₂.get? v = some (.literal (s.seeds.map .named)) := by
    intro shape' u t₁ t₂ h
    obtain rfl := Option.some.inj (hshape.symm.trans h.shape_eq)
    obtain ⟨hg, v, hu, hv⟩ := h.vector.grows h.seeded.index
    exact ⟨rfl, (hunder.grow (h.seeded.grows hdims)).grow hg, v, hu, hv⟩
  have hindexed : ∀ {shape' u t₁ t₂}, s.SeededTree e shape' u t₁ t₂ →
      Indexed D c.table m t₂ (.binary .psi (some shape') u e) := by
    intro shape' u t₁ t₂ h
    obtain ⟨rfl, -, v, rfl, hv⟩ := hseed h
    refine .psi hv ?_ hT
    rw [List.length_map, h.seeded.length_eq, hsized.shape, List.length_map]
  obtain ⟨shape', u, t₁, t₂, h, hrel, -, -⟩ := Context.reduce_rel
    (@preserves_meaning V D c.table m) hshaped.infers.part.op_ne_condition
    hshaped.wrapped hr (fun h => ⟨(hseed h).2.1, .inl (hindexed h)⟩) (fun h hrel =>
      (hrel.kept (hseed h).2.1 (hindexed h)).indexed.op_ne_condition)
  obtain ⟨rfl, hunder₂, v, rfl, hv⟩ := hseed h
  have hkept := hrel.kept hunder₂ (hindexed h)
  refine ⟨T, ?_, ?_, fun x hxr => ?_⟩
  · rw [hshaped.consequent_eq]
    exact hT.denote_eq hraw.declared htot hx ⟨rfl, fun _ _ => rfl⟩
  · rw [hshaped.consequent_eq, hshape, Option.bind_some, hsized.shape]
    exact htot.elements hsized.dimension
  · have hlen : s.seeds.length = x.length := by
      rw [h.seeded.length_eq, hxr.length_eq, hsized.shape, List.length_map]
    have hsame : m.SameUser (m.bindAll s.seeds x) := Memory.bindAll_sameUser h.seeded.generated
    have htot' := Memory.bindAll_total htot s.seeds x
    rw [hkept.eval _ hsame htot', eval_psi hunder₂.declared hunder₂.total hunder₂.extends_base
      hunder₂.sound hv hT hsame htot', Env.map_value_of_elements (Memory.bindAll_elements h.seeded.nodup hlen)]

/-- Arrays of the shapes that the table declares, under a valuation. -/
def SymbolTable.filled {V : Type} (t : SymbolTable) (σ : String → Int)
    (f : String → List Int → V) (name : String) : Option (Tensor V) := do
  return .ofFn (← (Env.ofValuation σ).elements (← (← t.get? name).shape)) (f name)

theorem Memory.conforms_filled {V : Type} {t : SymbolTable} (ht : t.Sound) (σ : String → Int)
    (f : String → List Int → V) : (Memory.ofValuation σ (t.filled σ f)).Conforms t := by
  intro name s hs
  have htot : (Env.ofValuation σ).Total := fun _ => rfl
  have helems := htot.elements (ht.shape_element hs rfl)
  refine ⟨.ofFn _ (f name), ?_, helems⟩
  simp [Memory.ofValuation, filled, hs, helems, Symbol.array]

/-- The transposed product of two matrices: the guard compares the inner axes. -/
theorem Context.reduce_meaning_product : ∃ c s r,
    Context.parse "tran (A^<n 3> +.* B^<m 2>)" = .ok c ∧ c.inferShapes = .ok s ∧
    s.reduce 100 = .ok r ∧
    let σ : String → Int := fun name => if name = "n" then 4 else 3
    let m := Memory.ofValuation σ (s.table.filled σ fun name x => x.sum + name.length)
    ∃ T, denote .integers s.table m s.consequent = some T ∧ T.shape = [2, 4] ∧
      ∀ x, InRange x [2, 4] →
        eval .integers r.table (m.bindAll s.seeds x) r.consequent = T.cell x := by
  let σ : String → Int := fun name => if name = "n" then 4 else 3
  have hrun : (do
      let c ← Context.parse "tran (A^<n 3> +.* B^<m 2>)"
      let s ← c.inferShapes
      let _ ← s.reduce 100
      return (c.tree.inFragment, s.guardTest (.ofValuation σ),
        s.consequent.shape.bind (Env.ofValuation σ).elements)) =
      .ok (true, some true, some [2, 4]) := by
    decide +kernel
  obtain ⟨c, hc, hrun⟩ := except_bind_ok.1 hrun
  obtain ⟨s, hs, hrun⟩ := except_bind_ok.1 hrun
  obtain ⟨r, hr, hrun⟩ := except_bind_ok.1 hrun
  simp only [pure, Except.pure, Except.ok.injEq, Prod.mk.injEq] at hrun
  obtain ⟨hfrag, hguard, hshape⟩ := hrun
  obtain ⟨e, cs, ds, hshaped⟩ := Context.inferShapes_ok (Context.parse_raw hc) hs
  have hsound := hshaped.grows.grows.sound (Context.parse_raw hc).declared.sound
  obtain ⟨T, hT, hTshape, hcells⟩ := reduce_meaning hc hfrag hs hr .integers σ _
    (Memory.conforms_filled hsound σ fun name x => x.sum + name.length) hguard
  rw [hshape, Option.some_inj] at hTshape
  exact ⟨c, s, r, hc, hs, hr, T, hT, hTshape.symm, hTshape ▸ hcells⟩

end PsiCalculus
