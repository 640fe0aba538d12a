import PsiCalculus.Proofs.Shape.Hoisting

/-!
# What the bounds check of an index admits

A psi whose index vector is known is checked element by element: two integers at once, any other pair
by a comparison that waits for run time. The lemmas here ask nothing of the context, so that a
symbolic element may be any scalar of a guard; its integer is read over the table in the end, which
holds the constants of the comparisons.

* `Env.reading t ρ x`: the integer of an element.
* `Demands p p' P`: what is deferred from `p` to `p'` is true exactly where `P` is.
* `Infer.shapeNode_bounds`: an index passes exactly if each of its elements is below the length of its
  axis. Nothing asks for an element that is not negative (`Infer.shapeNode_bounds_negative`).
-/

namespace PsiCalculus

open SymbolTable

namespace Env

/-- The integer of an element; a symbolic one is the scalar that its node is. -/
def reading (t : SymbolTable) (ρ : Env) : Element → Option Int
  | .int n => some n
  | .symbolic node => scalar t ρ node

/-- Both elements have integers, and the first is less. -/
def Below (t : SymbolTable) (ρ : Env) (index length : Element) : Prop :=
  ∃ i b, reading t ρ index = some i ∧ reading t ρ length = some b ∧ i < b

theorem below_int {t : SymbolTable} {ρ : Env} {i b : Int} :
    Below t ρ (.int i) (.int b) ↔ i < b := by
  simp [Below, reading]

end Env

/-- From `p` to `p'` the table grows and comparisons for less are deferred that are true, also over a
larger table, exactly where `P` holds. -/
def Demands (p p' : Pending) (P : SymbolTable → Env → Prop) : Prop :=
  Extends p.table p'.table ∧ ∃ added, p'.conditions = p.conditions ++ added ∧
    (∀ g ∈ added, g.op = .compare .less) ∧
    ∀ t ρ, Extends p'.table t → ((∀ g ∈ added, Env.test t ρ g = some true) ↔ P t ρ)

namespace Demands

variable {p p₁ p₂ : Pending} {P Q : SymbolTable → Env → Prop}

theorem nothing (h : ∀ t ρ, P t ρ) : Demands p p P :=
  ⟨.refl _, [], by simp, by simp, fun t ρ _ => by simp [h t ρ]⟩

theorem trans (h₁ : Demands p p₁ P) (h₂ : Demands p₁ p₂ Q) :
    Demands p p₂ fun t ρ => P t ρ ∧ Q t ρ := by
  obtain ⟨hx₁, added₁, hc₁, hop₁, htest₁⟩ := h₁
  obtain ⟨hx₂, added₂, hc₂, hop₂, htest₂⟩ := h₂
  refine ⟨hx₁.trans hx₂, added₁ ++ added₂, by rw [hc₂, hc₁, List.append_assoc],
    List.forall_mem_append.2 ⟨hop₁, hop₂⟩, ?_⟩
  intro t ρ hx
  rw [List.forall_mem_append, htest₁ t ρ (hx₂.trans hx), htest₂ t ρ hx]

theorem congr (h : Demands p p₁ P) (hPQ : ∀ t ρ, P t ρ ↔ Q t ρ) : Demands p p₁ Q := by
  obtain ⟨hx, added, hc, hop, htest⟩ := h
  exact ⟨hx, added, hc, hop, fun t ρ ht => (htest t ρ ht).trans (hPQ t ρ)⟩

end Demands

namespace Infer

variable {p p' : Pending}

/-- The scalar that stands for an element has its integer. -/
theorem scalar_reading {x : Element} {e : Expr} (h : (scalar x).run p = .ok (e, p')) :
    Extends p.table p'.table ∧ p'.conditions = p.conditions ∧
      ∀ t ρ, Extends p'.table t → Env.scalar t ρ e = Env.reading t ρ x := by
  cases x with
  | int n =>
    simp only [scalar, bind_ok, get_ok, lift_ok, set_ok, pure_ok, Prod.mk.injEq] at h
    obtain ⟨_, _, ⟨rfl, rfl⟩, ⟨leaf, table⟩, _, ⟨_, hgrow, rfl, rfl⟩, _, _, ⟨-, rfl⟩, rfl, rfl⟩ := h
    obtain ⟨name, -, hadds, rfl⟩ := Grow.scalar_ok hgrow
    refine ⟨hadds.grows, rfl, fun t ρ hx => ?_⟩
    rw [Env.scalar_array, Env.named_of_value ρ (hx.get? hadds.get?_self) rfl]
    rfl
  | symbolic node =>
    simp only [scalar, pure_ok, Prod.mk.injEq] at h
    obtain ⟨rfl, rfl⟩ := h
    exact ⟨.refl _, rfl, fun _ _ _ => rfl⟩

theorem compare_less {x y : Element} (h : (compare .less x y).run p = .ok ((), p')) :
    Demands p p' fun t ρ => Env.Below t ρ x y := by
  simp only [compare, bind_ok, modify_ok, Prod.mk.injEq] at h
  obtain ⟨l, p₁, hl, r, p₂, hr, -, rfl⟩ := h
  obtain ⟨hx₁, hc₁, hread₁⟩ := scalar_reading hl
  obtain ⟨hx₂, hc₂, hread₂⟩ := scalar_reading hr
  refine ⟨hx₁.trans hx₂, _, by rw [hc₂, hc₁], List.forall_mem_singleton.2 rfl, fun t ρ hx => ?_⟩
  rw [List.forall_mem_singleton, Env.test_compare, hread₁ t ρ (hx₂.trans hx), hread₂ t ρ hx]
  simp [Env.Below, Option.bind_eq_some_iff, CompareOp.holds]

/-- **The check of an index**: what it decides and what it defers say together that each element is
below the length of its axis. -/
theorem checkBounds_demands : ∀ {axis : Nat} {index lengths : Shape} {p p' : Pending},
    (checkBounds axis index lengths).run p = .ok ((), p') →
    Demands p p' fun t ρ => ∀ pair ∈ index.zip lengths, Env.Below t ρ pair.1 pair.2 := by
  intro axis index lengths
  fun_induction checkBounds axis index lengths with
  | case1 axis i is b bs hlt ih =>
    intro p p' h
    exact (ih h).congr fun t ρ => by simp [Env.below_int, hlt]
  | case2 axis i is b bs hlt =>
    intro p p' h
    exact (fault_ok.1 h).elim
  | case3 axis i is b bs hne ih =>
    intro p p' h
    obtain ⟨_, p₁, hc, h⟩ := bind_ok.1 h
    exact ((compare_less hc).trans (ih h)).congr fun t ρ => by simp
  | case4 index axis lengths hne hne' =>
    intro p p' h
    cases pure_ok.1 h
    -- one of the lists has come to its end
    refine .nothing fun t ρ pair hpair => ?_
    cases index with
    | nil => simp at hpair
    | cons i is =>
      cases lengths with
      | nil => simp at hpair
      | cons b bs => exact (hne' i is b bs rfl rfl).elim

/-- Selecting by a vector with known elements checks them. -/
theorem selectedShape_checks {node v X : Expr} {index lengths s : Shape}
    (hv : node.children[0]? = some v) (hindex : p.table.valueOf v = some index)
    (hX : node.children[1]? = some X) (hshape : X.shape = some lengths)
    (h : (selectedShape node).run p = .ok (s, p')) :
    (checkBounds 0 index lengths).run p = .ok ((), p') := by
  simp only [selectedShape, bind_ok, operandShape_ok, indexLength_ok] at h
  obtain ⟨_, _, ⟨-, rfl⟩, right, _, ⟨⟨X', hX', hright⟩, rfl⟩, _, _, ⟨-, rfl⟩, h⟩ := h
  cases hX.symm.trans hX'
  cases hshape.symm.trans hright
  split at h
  · exact (fault_ok.1 h).elim
  · obtain ⟨values, p₁, hvalues, h⟩ := bind_ok.1 h
    obtain ⟨⟨v', hv', rfl, -⟩, rfl⟩ := operandValue_ok.1 hvalues
    cases hv.symm.trans hv'
    rw [hindex] at h
    obtain ⟨_, p₂, hbounds, h⟩ := bind_ok.1 h
    cases pure_ok.1 h
    exact hbounds

/-- A node that is no condition and no reduction of a scalar is wrapped in what its shape calls for. -/
theorem shapeNode_run {c c' : Context} {node : Expr} {lifted : List Expr}
    (hh : Condition.hoist c.tree = (node, lifted)) (hop : node.op ≠ .condition)
    (hs : reducedScalar? node = none) (h : shapeNode c = .ok c') :
    ∃ shape pending, (nodeShape node).run { table := c.table } = .ok (shape, pending) ∧
      c' = ⟨Condition.wrap (node.withShape (some shape)) (lifted ++ pending.conditions),
        pending.table⟩ := by
  unfold shapeNode at h
  rw [hh] at h
  simp only [hs, hop, if_false, except_bind_ok] at h
  obtain ⟨⟨shape, pending⟩, hrun, h⟩ := h
  refine ⟨shape, pending, hrun, ?_⟩
  split at h
  · split at h
    · cases h
    · cases h
      rfl
  · cases h
    rfl

/-- **An index is admitted exactly if its elements are below the lengths of their axes**: for every
psi of a vector whose elements are known over an operand whose shape is (under its guard, if it has
one), the comparisons that inference adds are true under exactly the valuations that make each element
less than its length. -/
theorem shapeNode_bounds {c c' : Context} {s : Option Shape} {payload : Payload} {v X : Expr}
    {index lengths : Shape} (hroot : c.tree = .node .psi s payload [v, X])
    (hindex : c.table.valueOf v = some index)
    (hshape : (c.withTree X).consequent.shape = some lengths) (h : shapeNode c = .ok c') :
    ∃ (shape : Shape) (added : List Expr),
      c'.tree = Condition.wrap (.node .psi (some shape) payload [v, (c.withTree X).consequent])
        ((c.withTree X).guard?.toList ++ added) ∧
      (∀ g ∈ added, g.op = .compare .less) ∧
      ∀ σ, (∀ g ∈ added, Env.test c'.table (.ofValuation σ) g = some true) ↔
        ∀ pair ∈ index.zip lengths, Env.Below c'.table (.ofValuation σ) pair.1 pair.2 := by
  have hv : Condition.split? v = none := by
    refine Wrapped.split?_bare fun hop => ?_
    simp [valueOf, Expr.arrayName?, hop] at hindex
  have hh : Condition.hoist c.tree = (.node .psi s payload [v, (c.withTree X).consequent],
      (c.withTree X).guard?.toList) := by
    rw [hroot, hoist_children (by simp), Context.consequent, Context.guard?, Context.withTree]
    cases hX : Condition.split? X <;> simp [hv, hX]
  obtain ⟨shape, pending, hrun, rfl⟩ := shapeNode_run hh (by simp) rfl h
  obtain ⟨-, added, hadded, hop, htest⟩ :=
    checkBounds_demands (selectedShape_checks rfl hindex rfl hshape hrun)
  rw [List.nil_append] at hadded
  exact ⟨shape, added, by rw [hadded]; rfl, hop, fun σ => htest pending.table _ (.refl _)⟩

/-- An integer and a name as the index of an array under a guard of its own: the integer is compared
at once, the name at run time. -/
theorem shapeNode_bounds_guarded :
    let guard := Expr.binary (.compare .equal) (some []) (.array "n" (some [])) (.array "k" (some []))
    let matrix := Expr.array "A" (some [.int 3, .named "m"])
    let c : Context := ⟨.binary .psi none (.array "v" (some [.int 2]))
      (.binary .condition matrix.shape guard matrix), ⟨[("n", .array (some []) none),
        ("m", .array (some []) none), ("k", .array (some []) none), ("A", .array matrix.shape none),
        ("v", .array (some [.int 2]) (some [.int 1, .named "n"]))], 0⟩⟩
    ∃ c', shapeNode c = .ok c' ∧ ∃ (shape : Shape) (added : List Expr),
      c'.tree = Condition.wrap (.node .psi (some shape) .none [.array "v" (some [.int 2]), matrix])
        ([guard] ++ added) ∧ (∀ g ∈ added, g.op = .compare .less) ∧
      ∀ σ, (∀ g ∈ added, Env.test c'.table (.ofValuation σ) g = some true) ↔
        ∀ pair ∈ [(Element.int 1, Element.int 3), (.named "n", .named "m")],
          Env.Below c'.table (.ofValuation σ) pair.1 pair.2 := by
  intro guard matrix c
  have hrun : (shapeNode c).isOk = true := by decide +kernel
  cases hc : shapeNode c with
  | error e =>
    rw [hc] at hrun
    cases hrun
  | ok c' =>
    have hindex : c.table.valueOf (.array "v" (some [.int 2])) = some [.int 1, .named "n"] := rfl
    have hshape : (c.withTree (.binary .condition matrix.shape guard matrix)).consequent.shape =
        some [.int 3, .named "m"] := rfl
    exact ⟨c', rfl, shapeNode_bounds rfl hindex hshape hc⟩

/-- Elements `-1` and `n` of an index over the lengths 3 and 4: the first is compared at once, the
second at run time, and with -1 for `n` both pass. -/
theorem shapeNode_bounds_negative :
    let table : SymbolTable := ⟨[("n", .array (some []) none),
      ("v", .array (some [.int 2]) (some [.int (-1), .named "n"])),
      ("A", .array (some [.int 3, .int 4]) none)], 0⟩
    let psi := Expr.binary .psi none (.array "v" (some [.int 2])) (.array "A" (some [.int 3, .int 4]))
    let ρ := Env.ofValuation fun _ => -1
    ∃ c' g, shapeNode ⟨psi, table⟩ = .ok c' ∧
      c'.tree = .binary .condition (some []) g (psi.withShape (some [])) ∧
      Env.test c'.table ρ g = some true ∧ table.valueOf psi.children[0] = some [.int (-1), .named "n"] ∧
      Env.reading c'.table ρ (.int (-1)) = some (-1) ∧
      Env.reading c'.table ρ (.named "n") = some (-1) := by
  intro table psi ρ
  have hrun : (do
      let c' ← shapeNode ⟨psi, table⟩
      return decide (c'.tree = Expr.binary .condition (some []) (c'.guard?.getD psi)
          (psi.withShape (some [])) ∧
        Env.test c'.table ρ (c'.guard?.getD psi) = some true ∧
        Env.reading c'.table ρ (.named "n") = some (-1))) = .ok true := by
    decide +kernel
  obtain ⟨c', hc', hrun⟩ := except_bind_ok.1 hrun
  simp only [pure, Except.pure, Except.ok.injEq, decide_eq_true_eq] at hrun
  obtain ⟨htree, htest, hn⟩ := hrun
  exact ⟨c', _, hc', htree, htest, rfl, rfl, hn⟩

end Infer

end PsiCalculus
