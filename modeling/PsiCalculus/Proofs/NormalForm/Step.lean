import PsiCalculus.NormalForm
import PsiCalculus.Proofs.Shape.Law
import PsiCalculus.Proofs.Traversal

/-!
# One rewrite

`Pushes t s v X e t'` says, rule by rule, what becomes of `v psi X` over the table `t`: the tree `e`
over the table `t'`. New index vectors and bound indices are entered under fresh names (`NewVector`,
`Adds`), and every node that is built carries the shape `s` of the node it replaces.

* `Rule.rewrite_psi`: a rewrite of an indexed tree is one of these.
* `Rule.find?_other`: nothing else is rewritten.
-/

namespace PsiCalculus

open SymbolTable

/-- `u` is the leaf of a fresh vector of the elements. -/
structure NewVector (t : SymbolTable) (elements : Shape) (u : Expr) (t' : SymbolTable) : Prop where
  exists_name : ∃ name, isGenerated name = true ∧
    Adds t name (.array (some [.int elements.length]) (some elements)) t' ∧
    u = .array name (some [.int elements.length])

/-- A vector of dimensions and indices under a fresh name keeps a table sound. -/
theorem NewVector.grows {t t' : SymbolTable} {elements : Shape} {u : Expr} (h : NewVector t elements u t')
    (he : ∀ x ∈ elements, t.Dimension x ∨ t.IndexElement x) :
    Grows t t' ∧ ∃ name, u = .array name (some [.int elements.length]) ∧
      t'.get? name = some (.literal elements) := by
  obtain ⟨name, hn, hadds, rfl⟩ := h.exists_name
  exact ⟨hadds.sound_grows hn fun _ => .vector hn he, name, rfl, hadds.get?_self⟩

/-- An operand of a pointwise operator under the index `v`. -/
inductive PushesOperand (t : SymbolTable) (s : Option Shape) (v : Expr) :
    Expr → Expr → SymbolTable → Prop
  | leaf {X : Expr} : X.op = .array → X.shape = some [] → PushesOperand t s v X X t
  | scalar {X u : Expr} {t' : SymbolTable} : X.shape = some [] → NewVector t [] u t' →
      PushesOperand t s v X (.binary .psi s u X) t'
  | array {X : Expr} {shape : Shape} : X.shape = some shape → shape ≠ [] →
      PushesOperand t s v X (.binary .psi s v X) t

/-- What becomes of an indexed tree. -/
inductive Pushes (t : SymbolTable) (s : Option Shape) (v : Expr) :
    Expr → Expr → SymbolTable → Prop
  | assign {a : Option Shape} {p : Payload} {l r : Expr} :
      Pushes t s v (.node .assign a p [l, r])
        (.binary .assign s (.binary .psi s v l) (.binary .psi s v r)) t
  | psi {a : Option Shape} {p : Payload} {w X u : Expr} {first second : Shape} {t' : SymbolTable} :
      t.valueOf w = some first → t.valueOf v = some second →
      NewVector t (first ++ second) u t' →
      Pushes t s v (.node .psi a p [w, X]) (.binary .psi s u X) t'
  | transpose {a : Option Shape} {p : Payload} {X u : Expr} {index shape : Shape}
      {t' : SymbolTable} : t.valueOf v = some index → X.shape = some shape →
      index.length = shape.length → NewVector t index.reverse u t' →
      Pushes t s v (.node .transpose a p [X]) (.binary .psi s u X) t'
  | permute {a : Option Shape} {p : Payload} {w X u : Expr} {index places arranged : Shape}
      {t' : SymbolTable} : t.valueOf v = some index → t.valueOf w = some places →
      Shape.arrange? places index = some arranged → NewVector t arranged u t' →
      Pushes t s v (.node .permute a p [w, X]) (.binary .psi s u X) t'
  | elementwise {op : Operator} {a : Option Shape} {p : Payload} {l r l' r' : Expr}
      {t₁ t₂ : SymbolTable} : op.isElementwise = true → PushesOperand t s v l l' t₁ →
      PushesOperand t₁ s v r r' t₂ → Pushes t s v (.node op a p [l, r]) (.binary op s l' r') t₂
  | outer {op : ArithOp} {a : Option Shape} {p : Payload} {l r u w : Expr} {index shape : Shape}
      {t₁ t₂ : SymbolTable} : t.valueOf v = some index → l.shape = some shape →
      shape.length ≤ index.length → NewVector t (index.take shape.length) u t₁ →
      NewVector t₁ (index.drop shape.length) w t₂ →
      Pushes t s v (.node (.outer op) a p [l, r])
        (.binary (.arith op) s (.binary .psi s u l) (.binary .psi s w r)) t₂
  | inner {fold join : ArithOp} {a : Option Shape} {p : Payload} {l r u w : Expr}
      {index shape : Shape} {bound : Element} {k : String} {t₁ t₂ t₃ : SymbolTable} :
      t.valueOf v = some index → l.shape = some (shape ++ [bound]) →
      shape.length ≤ index.length → isGenerated k = true → Adds t k (.index bound) t₁ →
      NewVector t₁ (index.take shape.length ++ [.named k]) u t₂ →
      NewVector t₂ (.named k :: index.drop shape.length) w t₃ →
      Pushes t s v (.node (.inner fold join) a p [l, r])
        (.node (.reduce fold) s (.name k)
          [.binary (.arith join) s (.binary .psi s u l) (.binary .psi s w r)]) t₃
  | reduce {op : ArithOp} {a : Option Shape} {p : Payload} {X u : Expr} {index shape : Shape}
      {bound : Element} {k : String} {t₁ t₂ : SymbolTable} : t.valueOf v = some index →
      X.shape = some (bound :: shape) → isGenerated k = true → Adds t k (.index bound) t₁ →
      NewVector t₁ (.named k :: index) u t₂ →
      Pushes t s v (.node (.reduce op) a p [X])
        (.node (.reduce op) s (.name k) [.binary .psi s u X]) t₂

namespace Rule

variable {t t' : SymbolTable}

/-! ## Parts of a tree -/

theorem fault_ok {α : Type} {f : PatternFault} {r : α × SymbolTable} :
    (fault f : Grow α).run t = .ok r ↔ False := throw_ok

theorem operands_ok {node l r : Expr} (h : (operands node).run t = .ok ((l, r), t')) :
    node.children = [l, r] ∧ t' = t := by
  unfold operands at h
  split at h
  · next hc =>
    cases pure_ok.1 h
    exact ⟨hc, rfl⟩
  · exact (fault_ok.1 h).elim

theorem operand_ok {node e : Expr} (h : (operand node).run t = .ok (e, t')) :
    node.children = [e] ∧ t' = t := by
  unfold operand at h
  split at h
  · next hc =>
    cases pure_ok.1 h
    exact ⟨hc, rfl⟩
  · exact (fault_ok.1 h).elim

theorem shapeOf_ok {node : Expr} {s : Shape} (h : (shapeOf node).run t = .ok (s, t')) :
    node.shape = some s ∧ t' = t := by
  unfold shapeOf at h
  split at h
  · next hs =>
    cases pure_ok.1 h
    exact ⟨hs, rfl⟩
  · exact (throw_ok.1 h).elim

theorem elements_ok {v : Expr} {values : Shape} (h : (elements v).run t = .ok (values, t')) :
    t.valueOf v = some values ∧ t' = t := by
  unfold elements at h
  split at h
  · exact (fault_ok.1 h).elim
  · next name hname =>
    obtain ⟨symbol, t₁, hsymbol, hvalues⟩ := bind_ok.1 h
    obtain ⟨hget, rfl⟩ := Grow.symbol_ok.1 hsymbol
    split at hvalues
    · next hvalue =>
      cases pure_ok.1 hvalues
      refine ⟨?_, rfl⟩
      rw [valueOf, hname, Option.bind_some, hget, Option.bind_some, hvalue]
    · exact (fault_ok.1 hvalues).elim

theorem elements_run {v : Expr} {values : Shape} (h : t.valueOf v = some values) :
    (elements v).run t = .ok (values, t) := by
  obtain ⟨symbol, hsymbol, hvalue⟩ := Option.bind_eq_some_iff.1 h
  obtain ⟨name, hname, hget⟩ := Option.bind_eq_some_iff.1 hsymbol
  unfold elements
  rw [hname]
  refine bind_ok.2 ⟨symbol, t, Grow.symbol_ok.2 ⟨hget, rfl⟩, ?_⟩
  rw [hvalue]
  rfl

theorem indexed_ok {s : Option Shape} {elements : Shape} {X e : Expr}
    (h : (indexed s elements X).run t = .ok (e, t')) :
    ∃ u, NewVector t elements u t' ∧ e = .binary .psi s u X := by
  simp only [indexed, bind_ok, pure_ok, Prod.mk.injEq] at h
  obtain ⟨u, _, hu, rfl, rfl⟩ := h
  exact ⟨u, ⟨Grow.vector_ok hu⟩, rfl⟩

/-! ## The rules -/

section
variable {s a : Option Shape} {p : Payload} {v X e : Expr}

theorem pushAssign_ok {children : List Expr}
    (h : (pushAssign (.binary .psi s v (.node .assign a p children))).run t = .ok (e, t')) :
    Pushes t s v (.node .assign a p children) e t' := by
  simp only [pushAssign, bind_ok, pure_ok, Prod.mk.injEq] at h
  obtain ⟨⟨v', X'⟩, _, h₁, ⟨l, r⟩, _, h₂, rfl, rfl⟩ := h
  obtain ⟨hc, rfl⟩ := operands_ok h₁
  cases hc
  obtain ⟨hc, rfl⟩ := operands_ok h₂
  cases hc
  exact .assign

theorem pushPsi_ok {children : List Expr}
    (h : (pushPsi (.binary .psi s v (.node .psi a p children))).run t = .ok (e, t')) :
    Pushes t s v (.node .psi a p children) e t' := by
  simp only [pushPsi, bind_ok] at h
  obtain ⟨⟨v', X'⟩, _, h₁, ⟨w, X⟩, _, h₂, first, _, h₃, second, _, h₄, h⟩ := h
  obtain ⟨hc, rfl⟩ := operands_ok h₁
  cases hc
  obtain ⟨hc, rfl⟩ := operands_ok h₂
  cases hc
  obtain ⟨hfirst, rfl⟩ := elements_ok h₃
  obtain ⟨hsecond, rfl⟩ := elements_ok h₄
  obtain ⟨u, hu, rfl⟩ := indexed_ok h
  exact .psi hfirst hsecond hu

theorem pushTranspose_ok {children : List Expr}
    (h : (pushTranspose (.binary .psi s v (.node .transpose a p children))).run t = .ok (e, t')) :
    Pushes t s v (.node .transpose a p children) e t' := by
  simp only [pushTranspose, bind_ok] at h
  obtain ⟨⟨v', X'⟩, _, h₁, X, _, h₂, index, _, h₃, shape, _, h₄, h⟩ := h
  obtain ⟨hc, rfl⟩ := operands_ok h₁
  cases hc
  obtain ⟨hc, rfl⟩ := operand_ok h₂
  cases hc
  obtain ⟨hindex, rfl⟩ := elements_ok h₃
  obtain ⟨hshape, rfl⟩ := shapeOf_ok h₄
  split at h
  · exact (fault_ok.1 h).elim
  · next hlen =>
    obtain ⟨u, hu, rfl⟩ := indexed_ok h
    exact .transpose hindex hshape (by simpa using hlen) hu

theorem pushPermute_ok {children : List Expr}
    (h : (pushPermute (.binary .psi s v (.node .permute a p children))).run t = .ok (e, t')) :
    Pushes t s v (.node .permute a p children) e t' := by
  simp only [pushPermute, bind_ok] at h
  obtain ⟨⟨v', X'⟩, _, h₁, ⟨w, X⟩, _, h₂, index, _, h₃, places, _, h₄, h⟩ := h
  obtain ⟨hc, rfl⟩ := operands_ok h₁
  cases hc
  obtain ⟨hc, rfl⟩ := operands_ok h₂
  cases hc
  obtain ⟨hindex, rfl⟩ := elements_ok h₃
  obtain ⟨hplaces, rfl⟩ := elements_ok h₄
  split at h
  · next arranged harranged =>
    obtain ⟨u, hu, rfl⟩ := indexed_ok h
    exact .permute hindex hplaces harranged hu
  · exact (fault_ok.1 h).elim

theorem pushOperand_ok (h : (pushOperand s v X).run t = .ok (e, t')) :
    PushesOperand t s v X e t' := by
  unfold pushOperand at h
  split at h
  · next hleaf =>
    cases pure_ok.1 h
    exact .leaf hleaf.1 hleaf.2
  · obtain ⟨shape, t₁, hs, hpush⟩ := bind_ok.1 h
    obtain ⟨hshape, rfl⟩ := shapeOf_ok hs
    split at hpush
    · next hempty =>
      obtain ⟨u, hu, rfl⟩ := indexed_ok hpush
      rw [List.isEmpty_iff] at hempty
      subst hempty
      exact .scalar hshape hu
    · next hempty =>
      cases pure_ok.1 hpush
      exact .array hshape (by simpa using hempty)

theorem pushElementwise_ok {op : Operator} {children : List Expr} (hop : op.isElementwise = true)
    (h : (pushElementwise (.binary .psi s v (.node op a p children))).run t = .ok (e, t')) :
    Pushes t s v (.node op a p children) e t' := by
  simp only [pushElementwise, bind_ok, pure_ok, Prod.mk.injEq] at h
  obtain ⟨⟨v', X'⟩, _, h₁, ⟨l, r⟩, _, h₂, l', t₁, h₃, r', t₂, h₄, rfl, rfl⟩ := h
  obtain ⟨hc, rfl⟩ := operands_ok h₁
  cases hc
  obtain ⟨hc, rfl⟩ := operands_ok h₂
  cases hc
  exact .elementwise hop (pushOperand_ok h₃) (pushOperand_ok h₄)

theorem pushOuter_ok {op : ArithOp} {children : List Expr}
    (h : (pushOuter op (.binary .psi s v (.node (.outer op) a p children))).run t = .ok (e, t')) :
    Pushes t s v (.node (.outer op) a p children) e t' := by
  simp only [pushOuter, bind_ok] at h
  obtain ⟨⟨v', X'⟩, _, h₁, ⟨l, r⟩, _, h₂, index, _, h₃, shape, _, h₄, h⟩ := h
  obtain ⟨hc, rfl⟩ := operands_ok h₁
  cases hc
  obtain ⟨hc, rfl⟩ := operands_ok h₂
  cases hc
  obtain ⟨hindex, rfl⟩ := elements_ok h₃
  obtain ⟨hshape, rfl⟩ := shapeOf_ok h₄
  split at h
  · exact (fault_ok.1 h).elim
  · next hlen =>
    simp only [bind_ok, pure_ok, Prod.mk.injEq] at h
    obtain ⟨_, _, hleft, _, _, hright, rfl, rfl⟩ := h
    obtain ⟨u, hu, rfl⟩ := indexed_ok hleft
    obtain ⟨w, hw, rfl⟩ := indexed_ok hright
    exact .outer hindex hshape (Nat.le_of_not_lt hlen) hu hw

theorem pushInner_ok {fold join : ArithOp} {children : List Expr}
    (h : (pushInner fold join
      (.binary .psi s v (.node (.inner fold join) a p children))).run t = .ok (e, t')) :
    Pushes t s v (.node (.inner fold join) a p children) e t' := by
  simp only [pushInner, bind_ok] at h
  obtain ⟨⟨v', X'⟩, _, h₁, ⟨l, r⟩, _, h₂, index, _, h₃, shape, _, h₄, h⟩ := h
  obtain ⟨hc, rfl⟩ := operands_ok h₁
  cases hc
  obtain ⟨hc, rfl⟩ := operands_ok h₂
  cases hc
  obtain ⟨hindex, rfl⟩ := elements_ok h₃
  obtain ⟨hshape, rfl⟩ := shapeOf_ok h₄
  split at h
  · exact (fault_ok.1 h).elim
  · next bound hlast =>
    obtain ⟨lengths, rfl⟩ := List.getLast?_eq_some_iff.1 hlast
    simp only [List.length_append, List.length_singleton, Nat.add_sub_cancel] at h
    split at h
    · exact (fault_ok.1 h).elim
    · next hlen =>
      simp only [bind_ok, pure_ok, Prod.mk.injEq] at h
      obtain ⟨k, _, hk, _, _, hleft, _, _, hright, rfl, rfl⟩ := h
      obtain ⟨hg, hadds⟩ := Grow.index_ok hk
      obtain ⟨u, hu, rfl⟩ := indexed_ok hleft
      obtain ⟨w, hw, rfl⟩ := indexed_ok hright
      exact .inner hindex hshape (Nat.le_of_not_lt hlen) hg hadds hu hw

theorem pushReduce_ok {op : ArithOp} {children : List Expr}
    (h : (pushReduce (.binary .psi s v (.node (.reduce op) a p children))).run t = .ok (e, t')) :
    Pushes t s v (.node (.reduce op) a p children) e t' := by
  simp only [pushReduce, bind_ok] at h
  obtain ⟨⟨v', X'⟩, _, h₁, X, _, h₂, index, _, h₃, shape, _, h₄, h⟩ := h
  obtain ⟨hc, rfl⟩ := operands_ok h₁
  cases hc
  obtain ⟨hc, rfl⟩ := operand_ok h₂
  cases hc
  obtain ⟨hindex, rfl⟩ := elements_ok h₃
  obtain ⟨hshape, rfl⟩ := shapeOf_ok h₄
  split at h
  · exact (fault_ok.1 h).elim
  · simp only [bind_ok, pure_ok, Prod.mk.injEq] at h
    obtain ⟨k, _, hk, _, _, hbody, rfl, rfl⟩ := h
    obtain ⟨hg, hadds⟩ := Grow.index_ok hk
    obtain ⟨u, hu, rfl⟩ := indexed_ok hbody
    exact .reduce hindex hshape hg hadds hu

end

/-! ## Rewrites -/

/-- The rule for an operator that indexing is pushed through. -/
def ruleFor? : Operator → Option Rule
  | .assign => some assign
  | .psi => some psi
  | .transpose => some transpose
  | .permute => some permute
  | .arith _ | .compare _ | .logic _ => some elementwise
  | .outer _ => some outer
  | .inner _ _ => some inner
  | .reduce _ => some reduce
  | _ => none

theorem find?_psi (s : Option Shape) (v X : Expr) : find? (.binary .psi s v X) = ruleFor? X.op := by
  obtain ⟨op, a, p, children⟩ := X
  cases op <;> rfl

theorem find?_other {e : Expr} (h : e.op ≠ .psi) : find? e = none := by
  obtain ⟨op, a, p, children⟩ := e
  refine List.find?_eq_none.2 fun rule _ => ?_
  have hroot : (OperatorClass.exact .psi).has op = false := by
    simpa [OperatorClass.has, eq_comm] using h
  cases rule <;> simp [pattern, Pattern.psiOver, Pattern.fits, hroot]

theorem rewrite_ok {c c' : Context} :
    rewrite c = .ok (some c') ↔ ∃ rule, find? c.tree = some rule ∧
      (rule.apply c.tree).run c.table = .ok (c'.tree, c'.table) := by
  unfold rewrite
  cases find? c.tree with
  | none => simp
  | some rule =>
    rw [Traversal.map_ok]
    simp only [Option.some.injEq, exists_eq_right, exists_eq_left', Context.grow_ok]

/-- Only indexed trees are rewritten. -/
theorem rewrite_op {c c' : Context} (h : rewrite c = .ok (some c')) : c.tree.op = .psi := by
  obtain ⟨rule, hrule, -⟩ := rewrite_ok.1 h
  by_contra hop
  simp [find?_other hop] at hrule

theorem rewrite_none {c : Context} : rewrite c = .ok none ↔ find? c.tree = none := by
  unfold rewrite
  cases find? c.tree with
  | none => simp
  | some rule =>
    rw [Traversal.map_ok]
    simp

theorem rewrite_psi_none {s : Option Shape} {v X : Expr} :
    rewrite ⟨.binary .psi s v X, t⟩ = .ok none ↔ ruleFor? X.op = none := by
  rw [rewrite_none, find?_psi]

/-- **A rewrite pushes the index through one operator.** -/
theorem rewrite_psi {s : Option Shape} {v X : Expr} {c : Context}
    (h : rewrite ⟨.binary .psi s v X, t⟩ = .ok (some c)) : Pushes t s v X c.tree c.table := by
  obtain ⟨rule, hrule, h⟩ := rewrite_ok.1 h
  rw [find?_psi] at hrule
  obtain ⟨op, a, p, children⟩ := X
  cases op <;> cases hrule
  case assign => exact pushAssign_ok h
  case psi => exact pushPsi_ok h
  case transpose => exact pushTranspose_ok h
  case permute => exact pushPermute_ok h
  case arith | compare | logic => exact pushElementwise_ok rfl h
  case outer => exact pushOuter_ok h
  case inner => exact pushInner_ok h
  case reduce => exact pushReduce_ok h

end Rule

end PsiCalculus
