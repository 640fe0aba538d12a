import PsiCalculus.Proofs.Shape.Hoisting

/-!
# Shapes under a valuation

A valuation turns symbolic elements into integers. `Context.inferShapes_instantiate` says that shape
inference commutes with it: the instance of a context that is shaped is shaped exactly if the guard is
true under the valuation, and then without a guard and with the instances of the shapes.

Inference on integers defers nothing, so the table stays as it is and each check is decided where it
arises: `matchShapes_instantiate`, `checkBounds_instantiate`, `matchInner_instantiate` say that the
computation succeeds exactly if the checks hold. `Infers.instantiate` carries this from the operands of
a node to the node.
-/

namespace PsiCalculus

open SymbolTable

/-! ## Instances -/

/-- A name replaced by the integer that it stands for. -/
def Element.instantiate (σ : String → Int) : Element → Element
  | .int n => .int n
  | .symbolic node => node.name?.elim (.symbolic node) fun name => .int (σ name)

/-- A shape with names replaced by integers. -/
def Shape.instantiate (σ : String → Int) (s : Shape) : Shape := s.map (Element.instantiate σ)

/-- What is known of a name, with the names in it replaced by integers. -/
def Symbol.instantiate (σ : String → Int) (s : Symbol) : Symbol :=
  { s with shape := s.shape.map (Shape.instantiate σ), value := s.value.map (Shape.instantiate σ) }

/-- A table whose symbolic elements are replaced by integers throughout. -/
def SymbolTable.instantiate (σ : String → Int) (t : SymbolTable) : SymbolTable :=
  { t with entries := t.entries.map fun (name, s) => (name, s.instantiate σ) }

mutual

/-- A tree with the shape of each node instantiated. -/
def Expr.instantiate (σ : String → Int) : Expr → Expr
  | .node op shape payload children =>
    .node op (shape.map (Shape.instantiate σ)) payload (Expr.instantiateAll σ children)
termination_by structural e => e

/-- Several trees with the shape of each node instantiated. -/
def Expr.instantiateAll (σ : String → Int) : List Expr → List Expr
  | [] => []
  | c :: cs => c.instantiate σ :: Expr.instantiateAll σ cs
termination_by structural cs => cs

end

/-- A context whose table is instantiated. -/
def Context.instantiate (σ : String → Int) (c : Context) : Context :=
  { c with table := c.table.instantiate σ }

section
variable (σ : String → Int)

@[simp] theorem Expr.instantiate_unary (op : Operator) (shape : Option Shape) (e : Expr) :
    (Expr.unary op shape e).instantiate σ =
      .unary op (shape.map (Shape.instantiate σ)) (e.instantiate σ) := rfl

@[simp] theorem Expr.instantiate_binary (op : Operator) (shape : Option Shape) (l r : Expr) :
    (Expr.binary op shape l r).instantiate σ =
      .binary op (shape.map (Shape.instantiate σ)) (l.instantiate σ) (r.instantiate σ) := rfl

/-- Instances have the same operators. -/
theorem Expr.operators_instantiate (e : Expr) : (e.instantiate σ).operators = e.operators := by
  induction e using Expr.induction_on_children with
  | node op shape payload children ih =>
    have hall : Expr.operatorsAll (Expr.instantiateAll σ children) = Expr.operatorsAll children := by
      induction children with
      | nil => rfl
      | cons c cs ihs =>
        rw [Expr.instantiateAll, Expr.operatorsAll, Expr.operatorsAll, ih c (.head _),
          ihs fun d hd => ih d (.tail _ hd)]
    rw [Expr.instantiate, Expr.operators, Expr.operators, hall]

theorem Expr.shape_instantiate (e : Expr) :
    (e.instantiate σ).shape = e.shape.map (Shape.instantiate σ) := by
  cases e
  rw [Expr.instantiate]
  rfl

theorem Expr.shape_instantiate_of {e : Expr} {s : Shape} (h : e.shape = some s) :
    (e.instantiate σ).shape = some (s.instantiate σ) := by
  rw [Expr.shape_instantiate, h, Option.map_some]

theorem Expr.op_instantiate (e : Expr) : (e.instantiate σ).op = e.op := by
  cases e
  rw [Expr.instantiate]
  rfl

theorem Part.instantiate_op {t : SymbolTable} {e : Expr} (h : Part t e) :
    (e.instantiate σ).op ≠ .condition := by
  rw [Expr.op_instantiate]
  exact h.op_ne_condition

theorem Expr.arrayName?_instantiate (e : Expr) : (e.instantiate σ).arrayName? = e.arrayName? := by
  cases e
  rw [Expr.instantiate]
  rfl

theorem SymbolTable.get?_instantiate (t : SymbolTable) (name : String) :
    (t.instantiate σ).get? name = (t.get? name).map (Symbol.instantiate σ) := by
  have hlookup : ∀ entries : List (String × Symbol),
      (entries.map fun (name, s) => (name, s.instantiate σ)).lookup name =
        (entries.lookup name).map (Symbol.instantiate σ) := by
    intro entries
    induction entries with
    | nil => rfl
    | cons entry entries ih =>
      obtain ⟨key, s⟩ := entry
      simp only [List.map_cons, List.lookup_cons]
      cases name == key
      · exact ih
      · rfl
  exact hlookup t.entries

theorem SymbolTable.valueOf_instantiate (t : SymbolTable) (e : Expr) :
    (t.instantiate σ).valueOf (e.instantiate σ) = (t.valueOf e).map (Shape.instantiate σ) := by
  unfold valueOf
  rw [Expr.arrayName?_instantiate]
  cases e.arrayName? with
  | none => rfl
  | some name =>
    rw [Option.bind_some, Option.bind_some, get?_instantiate]
    cases t.get? name <;> rfl

theorem SymbolTable.Dimension.instantiate {t : SymbolTable} {x : Element} (h : t.Dimension x) :
    ∃ n, x.instantiate σ = .int n ∧ (Env.ofValuation σ).element x = some n := by
  obtain ⟨n, rfl⟩ | ⟨name, rfl, -⟩ := h
  · exact ⟨n, rfl, rfl⟩
  · exact ⟨σ name, rfl, rfl⟩

/-- A check holds exactly if its instances compare so. -/
theorem Check.holds_iff {t : SymbolTable} (op : CompareOp) {x y : Element} (hx : t.Dimension x)
    (hy : t.Dimension y) : ∃ m n, x.instantiate σ = .int m ∧ y.instantiate σ = .int n ∧
      (Check.Holds (.ofValuation σ) ⟨op, x, y⟩ ↔ op.holds m n = true) := by
  obtain ⟨m, hm, hm'⟩ := hx.instantiate σ
  obtain ⟨n, hn, hn'⟩ := hy.instantiate σ
  exact ⟨m, n, hm, hn, by simp [Check.Holds, Check.test, hm', hn']⟩

end

/-! ## Checks between integers -/

namespace Infer

variable {σ : String → Int} {t : SymbolTable} {p p' : Pending}

theorem matchAxis_instantiate {op : Operator} {axis : Nat} {x y z : Element} (hx : t.Dimension x)
    (hy : t.Dimension y) :
    (matchAxis op axis (x.instantiate σ) (y.instantiate σ)).run p = .ok (z, p') ↔
      Check.Holds (.ofValuation σ) ⟨.equal, x, y⟩ ∧ z = x.instantiate σ ∧ p' = p := by
  obtain ⟨m, n, hm, hn, hiff⟩ := Check.holds_iff σ .equal hx hy
  rw [hiff, hm, hn, matchAxis]
  simp only [CompareOp.holds, beq_iff_eq]
  split
  · next hmn =>
    rw [pure_ok]
    simp [hmn, eq_comm]
  · next hmn => simp [hmn, fault_ok]

theorem matchAxes_instantiate {op : Operator} : ∀ {axis : Nat} {l r s : Shape},
    l.length = r.length → (∀ x ∈ l, t.Dimension x) → (∀ x ∈ r, t.Dimension x) →
    ((matchAxes op axis (l.instantiate σ) (r.instantiate σ)).run p = .ok (s, p') ↔
      (∀ c ∈ Shape.agreement l r, c.Holds (.ofValuation σ)) ∧ s = l.instantiate σ ∧ p' = p)
  | _, [], [], _, _, _, _ => by
    change (pure [] : Infer Shape).run p = _ ↔ _
    rw [pure_ok]
    simp [Shape.agreement, Shape.instantiate, eq_comm]
  | axis, x :: l, y :: r, s, hlen, hl, hr => by
    have ih := @matchAxes_instantiate op (axis + 1) l r
    have hcons : ∀ c, (∀ c' ∈ Shape.agreement (x :: l) (y :: r), c'.Holds c) ↔
        Check.Holds c ⟨.equal, x, y⟩ ∧ ∀ c' ∈ Shape.agreement l r, c'.Holds c := by
      simp [Shape.agreement]
    rw [hcons]
    simp only [Shape.instantiate, List.map_cons, matchAxes, bind_ok, pure_ok, Prod.mk.injEq,
      matchAxis_instantiate (hl x (.head _)) (hr y (.head _))]
    constructor
    · rintro ⟨_, _, ⟨hxy, rfl, rfl⟩, rest, _, hrest, rfl, rfl⟩
      obtain ⟨hall, rfl, rfl⟩ := (ih (Nat.succ.inj hlen) (fun a ha => hl a (.tail _ ha))
        (fun a ha => hr a (.tail _ ha))).1 hrest
      exact ⟨⟨hxy, hall⟩, rfl, rfl⟩
    · rintro ⟨⟨hxy, hall⟩, rfl, rfl⟩
      exact ⟨_, _, ⟨hxy, rfl, rfl⟩, _, _, (ih (Nat.succ.inj hlen) (fun a ha => hl a (.tail _ ha))
        (fun a ha => hr a (.tail _ ha))).2 ⟨hall, rfl, rfl⟩, rfl, rfl⟩

/-- Shapes that agree have the instance of the left one in common. -/
theorem prefer_instantiate : ∀ {l r : Shape}, l.length = r.length → (∀ x ∈ l, t.Dimension x) →
    (∀ x ∈ r, t.Dimension x) → (∀ c ∈ Shape.agreement l r, c.Holds (.ofValuation σ)) →
    Shape.instantiate σ (List.zipWith Shape.prefer l r) = l.instantiate σ
  | [], [], _, _, _, _ => rfl
  | x :: l, y :: r, hlen, hl, hr, h => by
    have ih := prefer_instantiate (Nat.succ.inj hlen) (fun a ha => hl a (.tail _ ha))
      (fun a ha => hr a (.tail _ ha)) (fun c hc => h c (.tail _ hc))
    obtain ⟨m, n, hm, hn, hiff⟩ :=
      Check.holds_iff σ .equal (hl x (.head _)) (hr y (.head _))
    have hmn : m = n := by
      have := hiff.1 (h ⟨.equal, x, y⟩ (.head _))
      simpa [CompareOp.holds] using this
    have hxy : (Shape.prefer x y).instantiate σ = x.instantiate σ := by
      cases x <;> cases y <;> first | rfl | exact hn.trans (hmn ▸ hm.symm)
    simp only [Shape.instantiate, List.zipWith_cons_cons, List.map_cons, List.cons.injEq] at ih ⊢
    exact ⟨hxy, ih⟩

theorem matchShapes_instantiate {op : Operator} {l r s : Shape} (hlen : l.length = r.length)
    (hl : ∀ x ∈ l, t.Dimension x) (hr : ∀ x ∈ r, t.Dimension x) :
    (matchShapes op (l.instantiate σ) (r.instantiate σ)).run p = .ok (s, p') ↔
      (∀ c ∈ Shape.agreement l r, c.Holds (.ofValuation σ)) ∧
        s = Shape.instantiate σ (List.zipWith Shape.prefer l r) ∧ p' = p := by
  unfold matchShapes
  rw [if_pos (by simp [Shape.instantiate, hlen]), matchAxes_instantiate hlen hl hr]
  constructor
  · rintro ⟨hall, rfl, rfl⟩
    exact ⟨hall, (prefer_instantiate hlen hl hr hall).symm, rfl⟩
  · rintro ⟨hall, rfl, rfl⟩
    exact ⟨hall, prefer_instantiate hlen hl hr hall, rfl⟩

theorem checkBounds_instantiate : ∀ {axis : Nat} {index s : Shape} {u : Unit},
    (∀ x ∈ index, t.Dimension x) → (∀ x ∈ s, t.Dimension x) →
    ((checkBounds axis (index.instantiate σ) (s.instantiate σ)).run p = .ok (u, p') ↔
      (∀ c ∈ Shape.bounds index s, c.Holds (.ofValuation σ)) ∧ p' = p)
  | axis, [], s, _, _, _ => by
    have hnil : checkBounds axis (Shape.instantiate σ []) (s.instantiate σ) = pure () := by
      simp [Shape.instantiate, checkBounds]
    rw [hnil, pure_ok]
    simp [Shape.bounds, eq_comm]
  | axis, x :: index, [], _, _, _ => by
    have hnil : checkBounds axis (Shape.instantiate σ (x :: index)) (Shape.instantiate σ []) =
        pure () := by
      simp [Shape.instantiate, checkBounds]
    rw [hnil, pure_ok]
    simp [Shape.bounds, eq_comm]
  | axis, x :: index, y :: s, u, hi, hs => by
    have ih := @checkBounds_instantiate (axis + 1) index s u (fun a ha => hi a (.tail _ ha))
      (fun a ha => hs a (.tail _ ha))
    obtain ⟨m, n, hm, hn, hiff⟩ :=
      Check.holds_iff σ .less (hi x (.head _)) (hs y (.head _))
    have hstep : checkBounds axis (Shape.instantiate σ (x :: index)) (Shape.instantiate σ (y :: s)) =
        if m < n then checkBounds (axis + 1) (Shape.instantiate σ index) (Shape.instantiate σ s)
        else fault (.indexOutOfBounds m n axis) := by
      simp only [Shape.instantiate, List.map_cons, hm, hn]
      rw [checkBounds]
    have hcons : (∀ c ∈ Shape.bounds (x :: index) (y :: s), c.Holds (.ofValuation σ)) ↔
        m < n ∧ ∀ c ∈ Shape.bounds index s, c.Holds (.ofValuation σ) := by
      simp [Shape.bounds, hiff, CompareOp.holds]
    rw [hcons, hstep]
    split
    · next hlt => rw [ih, and_iff_right hlt]
    · next hlt => simp [fault_ok, hlt]

theorem matchInner_instantiate {x y : Element} {u : Unit} (hx : t.Dimension x) (hy : t.Dimension y) :
    (matchInner (x.instantiate σ) (y.instantiate σ)).run p = .ok (u, p') ↔
      Check.Holds (.ofValuation σ) ⟨.equal, x, y⟩ ∧ p' = p := by
  obtain ⟨m, n, hm, hn, hiff⟩ := Check.holds_iff σ .equal hx hy
  rw [hiff, hm, hn, matchInner]
  simp only [CompareOp.holds, beq_iff_eq]
  split
  · next hmn =>
    rw [pure_ok]
    simp [hmn, eq_comm]
  · next hmn => simp [hmn, fault_ok]

/-! ## One node -/

theorem ints?_instantiate : ∀ {q : Shape} {targets : List Int}, Shape.ints? q = some targets →
    Shape.ints? (q.instantiate σ) = some targets := by
  intro q targets h
  have hid : q.instantiate σ = q := by
    unfold Shape.ints? at h
    induction q generalizing targets with
    | nil => rfl
    | cons x q ih =>
      rw [List.mapM_cons] at h
      obtain ⟨n, hn, h⟩ := Option.bind_eq_some_iff.1 h
      obtain ⟨rest, hrest, -⟩ := Option.bind_eq_some_iff.1 h
      cases x with
      | symbolic => cases hn
      | int m =>
        have := ih hrest
        simp only [Shape.instantiate, List.map_cons, List.cons.injEq] at this ⊢
        exact ⟨rfl, this⟩
  rw [hid, h]

theorem reducedScalar?_instantiate {op : Operator} {e : Expr} {s shape : Shape}
    (hs : e.shape = some s) (hlaw : UnaryLaw op s shape) :
    reducedScalar? (.unary op none (e.instantiate σ)) = none := by
  cases hlaw with
  | reduce => simp [reducedScalar?, Expr.unary, Expr.shape_instantiate, hs, Shape.instantiate]
  | transpose | shape | dim => rfl

/-- The law of an operator of one operand commutes with instances. -/
theorem unaryLaw_instantiate {op : Operator} {s shape shape' : Shape} (hlaw : UnaryLaw op s shape) :
    UnaryLaw op (s.instantiate σ) shape' ↔ shape' = shape.instantiate σ := by
  constructor
  · intro h
    cases hlaw <;> cases h <;> simp [Shape.instantiate, Element.instantiate]
  · rintro rfl
    cases hlaw with
    | transpose =>
      rw [Shape.instantiate, Shape.instantiate, List.map_reverse]
      exact .transpose
    | shape =>
      have hlen : s.length = (s.instantiate σ).length := (List.length_map _).symm
      rw [hlen]
      exact .shape
    | dim => exact .dim
    | reduce => exact .reduce

theorem nodeShape_unary_instantiate {op : Operator} {e : Expr} {s shape shape' : Shape}
    (hs : e.shape = some s) (hlaw : UnaryLaw op s shape) :
    (nodeShape (.unary op none (e.instantiate σ))).run p = .ok (shape', p') ↔
      shape' = shape.instantiate σ ∧ p' = p := by
  have hop : op.leads = true := by cases hlaw <;> rfl
  rw [nodeShape_unary hop (Expr.shape_instantiate_of σ hs) (reducedScalar?_instantiate hs hlaw),
    unaryLaw_instantiate hlaw]

section
variable {op : Operator} {l r : Expr} {a b shape shape' : Shape}

/-- A leaf that a table knows is known to its instance. -/
theorem leaf_get?_instantiate (hn : ∀ name, l.arrayName? = some name → ∃ s, t.get? name = some s)
    (hp : p.table = t.instantiate σ) {name : String}
    (h : (l.instantiate σ).arrayName? = some name) : (p.table.get? name).isSome := by
  rw [Expr.arrayName?_instantiate] at h
  obtain ⟨s, hs⟩ := hn name h
  rw [hp, get?_instantiate, hs]
  rfl

theorem permutedShape_instantiate {q : Shape} {targets : List Int} (hb : r.shape = some b)
    (hn : ∀ name, l.arrayName? = some name → ∃ s, t.get? name = some s)
    (hp : p.table = t.instantiate σ) (hq : t.valueOf l = some q)
    (hints : Shape.ints? q = some targets) (hlength : targets.length = b.length)
    (hplaced : Shape.place? targets b = some shape) :
    (permutedShape (.binary op none (l.instantiate σ) (r.instantiate σ))).run p = .ok (shape', p') ↔
      shape' = shape.instantiate σ ∧ p' = p := by
  have hplaced' : Shape.place? targets (b.instantiate σ) = some (shape.instantiate σ) :=
    Shape.place?_map _ hlength hplaced
  refine (permutedShape_ok rfl (Expr.shape_instantiate_of σ hb)
    fun _ => leaf_get?_instantiate hn hp).trans (and_congr_left' ?_)
  rw [hp, valueOf_instantiate, hq]
  constructor
  · rintro ⟨_, _, hq', hints', -, h⟩
    cases hq'
    cases (ints?_instantiate hints).symm.trans hints'
    exact Option.some.inj (h.symm.trans hplaced')
  · rintro rfl
    exact ⟨_, _, rfl, ints?_instantiate hints, hlength.trans (List.length_map _).symm, hplaced'⟩

theorem selectedShape_instantiate {n : Int} (ht : t.Declared) (ha : l.shape = some [.int n])
    (hb : r.shape = some b) (hdb : ∀ x ∈ b, t.Dimension x)
    (hn : ∀ name, l.arrayName? = some name → ∃ s, t.get? name = some s)
    (hp : p.table = t.instantiate σ) (hlength : Shape.indexRank n ≤ b.length) :
    (selectedShape (.binary op none (l.instantiate σ) (r.instantiate σ))).run p = .ok (shape', p') ↔
      (∀ c ∈ Shape.bounds ((t.valueOf l).getD []) b, c.Holds (.ofValuation σ)) ∧
        shape' = Shape.instantiate σ (b.drop (Shape.indexRank n)) ∧ p' = p := by
  have hvalue : (((t.valueOf l).map (Shape.instantiate σ)).getD []) =
      Shape.instantiate σ ((t.valueOf l).getD []) := by cases t.valueOf l <;> rfl
  have hlen : (b.instantiate σ).length = b.length := List.length_map _
  have hdrop : (b.instantiate σ).drop (Shape.indexRank n) =
      Shape.instantiate σ (b.drop (Shape.indexRank n)) := List.map_drop.symm
  refine (selectedShape_ok (Expr.shape_instantiate_of σ ha) (Expr.shape_instantiate_of σ hb)
    fun _ => leaf_get?_instantiate hn hp).trans ?_
  rw [hp, valueOf_instantiate, hvalue]
  simp only [checkBounds_instantiate (ht.value_dimension l) hdb, hlen]
  constructor
  · rintro ⟨_, hindex, -, rfl, hall, rfl⟩
    cases hindex
    exact ⟨hall, hdrop, rfl⟩
  · rintro ⟨hall, rfl, rfl⟩
    exact ⟨_, rfl, hlength, hdrop.symm, hall, rfl⟩

theorem innerShape_instantiate {m n : Element} (ha : l.shape = some (a ++ [m]))
    (hb : r.shape = some (n :: b)) (hm : t.Dimension m) (hn : t.Dimension n) :
    (innerShape (.binary op none (l.instantiate σ) (r.instantiate σ))).run p = .ok (shape', p') ↔
      Check.Holds (.ofValuation σ) ⟨.equal, m, n⟩ ∧ shape' = Shape.instantiate σ (a ++ b) ∧ p' = p := by
  have hmatch : (matchInner (m.instantiate σ) (n.instantiate σ)).run p = .ok ((), p') ↔ _ :=
    matchInner_instantiate hm hn
  refine (innerShape_ok (Expr.shape_instantiate_of σ ha) (Expr.shape_instantiate_of σ hb)).trans ?_
  simp only [Shape.instantiate, List.map_append, List.map_cons, List.map_nil]
  constructor
  · rintro ⟨a', m', n', b', hsplit, hsplit', hm', rfl⟩
    obtain ⟨rfl, hlast⟩ := List.append_inj' hsplit rfl
    cases hlast
    cases hsplit'
    obtain ⟨hmn, rfl⟩ := hmatch.1 hm'
    exact ⟨hmn, rfl, rfl⟩
  · rintro ⟨hmn, rfl, rfl⟩
    exact ⟨_, _, _, _, rfl, rfl, hmatch.2 ⟨hmn, rfl⟩, rfl⟩

theorem nodeShape_binary_instantiate {checks : List Check} (ht : t.Declared)
    (ha : l.shape = some a) (hb : r.shape = some b) (hda : ∀ x ∈ a, t.Dimension x)
    (hdb : ∀ x ∈ b, t.Dimension x)
    (hn : ∀ name, l.arrayName? = some name → ∃ s, t.get? name = some s)
    (hlaw : BinaryLaw (t.valueOf l) op a b shape checks) (hp : p.table = t.instantiate σ) :
    (nodeShape (.binary op none (l.instantiate σ) (r.instantiate σ))).run p = .ok (shape', p') ↔
      (∀ c ∈ checks, c.Holds (.ofValuation σ)) ∧ shape' = shape.instantiate σ ∧ p' = p := by
  have ha' : (l.instantiate σ).shape = some (a.instantiate σ) := Expr.shape_instantiate_of σ ha
  have hb' : (r.instantiate σ).shape = some (b.instantiate σ) := Expr.shape_instantiate_of σ hb
  have hnil : ∀ s : Shape, s.instantiate σ = [] ↔ s = [] := fun s => List.map_eq_nil_iff
  cases hlaw with
  | permute hq hints hlength hplaced =>
    refine (permutedShape_instantiate hb hn hp hq hints hlength hplaced).trans ?_
    simp
  | assign hlength =>
    exact (equalShape_ok ha' hb').trans (matchShapes_instantiate hlength hda hdb)
  | psi hlength => exact selectedShape_instantiate ht ha hb hdb hn hp hlength
  | scalarLeft =>
    refine (extendedShape_ok ha' hb').trans ?_
    simp [hnil]
  | scalarRight hne =>
    refine (extendedShape_ok ha' hb').trans ?_
    simp [hnil, hne]
  | pointwise hne hne' hlength =>
    refine (extendedShape_ok ha' hb').trans ?_
    simp only [hnil, hne, hne', false_and, false_or, not_false_eq_true, true_and, ne_eq]
    exact matchShapes_instantiate hlength hda hdb
  | outer =>
    refine (outerShape_ok ha' hb').trans ?_
    simp [Shape.instantiate]
  | inner =>
    refine (innerShape_instantiate ha hb (hda _ (by simp)) (hdb _ (.head _))).trans ?_
    simp

end

theorem shapeNode_instantiate {node : Expr} {c : Context} {P : Prop} (shape : Shape)
    (hh : Condition.hoist node = (node, [])) (hshape : node.shape = none)
    (hop : node.op ≠ .condition) (hr : reducedScalar? node = none)
    (hrun : ∀ {shape' p'}, (nodeShape node).run { table := t.instantiate σ } = .ok (shape', p') ↔
      P ∧ shape' = shape.instantiate σ ∧ p' = { table := t.instantiate σ }) :
    shapeNode ⟨node, t.instantiate σ⟩ = .ok c ↔
      P ∧ c = ⟨node.withShape (some (shape.instantiate σ)), t.instantiate σ⟩ := by
  rw [shapeNode_ok (c := ⟨node, t.instantiate σ⟩) hh hshape hop hr]
  simp only [hrun]
  constructor
  · rintro ⟨_, _, ⟨hP, rfl, rfl⟩, rfl⟩
    exact ⟨hP, rfl⟩
  · rintro ⟨hP, rfl⟩
    exact ⟨_, _, ⟨hP, rfl, rfl⟩, rfl⟩

theorem hoist_unary {op : Operator} {e : Expr} (hne : op ≠ .condition) (he : Part t e) :
    Condition.hoist (.unary op none (e.instantiate σ)) = (.unary op none (e.instantiate σ), []) := by
  rw [Expr.unary, hoist_children hne]
  simp [Wrapped.split?_bare (he.instantiate_op σ)]

theorem hoist_binary {op : Operator} {l r : Expr} (hne : op ≠ .condition) (hl : Part t l)
    (hr : Part t r) : Condition.hoist (.binary op none (l.instantiate σ) (r.instantiate σ)) =
      (.binary op none (l.instantiate σ) (r.instantiate σ), []) := by
  rw [Expr.binary, hoist_children hne]
  simp [Wrapped.split?_bare (hl.instantiate_op σ), Wrapped.split?_bare (hr.instantiate_op σ)]

theorem shapeNode_unary_instantiate {op : Operator} {e : Expr} {s shape : Shape} {c : Context}
    (he : Part t e) (hs : e.shape = some s) (hlaw : UnaryLaw op s shape) :
    shapeNode ⟨.unary op none (e.instantiate σ), t.instantiate σ⟩ = .ok c ↔
      c = ⟨.unary op (some (shape.instantiate σ)) (e.instantiate σ), t.instantiate σ⟩ := by
  have hne : op ≠ .condition := by cases hlaw <;> simp
  refine (shapeNode_instantiate (P := True) shape (hoist_unary hne he) rfl hne
    (reducedScalar?_instantiate hs hlaw) fun {shape' p'} => ?_).trans (iff_of_eq (true_and _))
  rw [nodeShape_unary_instantiate hs hlaw, true_and]

theorem shapeNode_binary_instantiate {op : Operator} {l r : Expr} {a b shape : Shape}
    {checks : List Check} {c : Context} (ht : t.Declared) (hl : Part t l) (hr : Part t r)
    (ha : l.shape = some a) (hb : r.shape = some b)
    (hlaw : BinaryLaw (t.valueOf l) op a b shape checks) :
    shapeNode ⟨.binary op none (l.instantiate σ) (r.instantiate σ), t.instantiate σ⟩ = .ok c ↔
      (∀ d ∈ checks, d.Holds (.ofValuation σ)) ∧
        c = ⟨.binary op (some (shape.instantiate σ)) (l.instantiate σ) (r.instantiate σ),
          t.instantiate σ⟩ := by
  have hne : op ≠ .condition := by cases hlaw <;> simp
  have hscalar : reducedScalar? (.binary op none (l.instantiate σ) (r.instantiate σ)) = none := by
    cases hlaw <;> rfl
  exact shapeNode_instantiate shape (hoist_binary hne hl hr) rfl hne hscalar
    (nodeShape_binary_instantiate ht ha hb (hl.dimension ht ha) (hr.dimension ht hb)
      (fun _ hn => hl.leaf_get? hn) hlaw rfl)

theorem shapeNode_scalar_instantiate {op : ArithOp} {e : Expr} (he : Part t e)
    (hs : e.shape = some []) :
    shapeNode ⟨.unary (.reduce op) none (e.instantiate σ), t.instantiate σ⟩ =
      .ok ⟨e.instantiate σ, t.instantiate σ⟩ :=
  shapeNode_scalar (c := ⟨.unary (.reduce op) none (e.instantiate σ), t.instantiate σ⟩)
    (hoist_unary (by simp) he)
    (by simp [reducedScalar?, Expr.unary, Expr.shape_instantiate, hs, Shape.instantiate])

end Infer

/-! ## The whole tree -/

namespace Infers

variable {σ : String → Int} {t : SymbolTable}

/-- **Instances are shaped exactly if all checks hold**, and to the instance of the tree. -/
theorem instantiate (ht : t.Declared) {e e' : Expr} {cs : List Check} (h : Infers t e e' cs) :
    ∀ {path : Path} {c : Context},
      Traversal.postorderFrom Infer.shapeNode path (t.instantiate σ) e = .ok c ↔
        (∀ d ∈ cs, d.Holds (.ofValuation σ)) ∧ c = ⟨e'.instantiate σ, t.instantiate σ⟩ := by
  induction h with
  | @leaf name s shape hs hsh =>
    intro path c
    rw [Traversal.postorder_leaf]
    refine Infer.shapeNode_instantiate shape rfl rfl (by simp [Expr.array]) rfl ?_
    intro shape' p'
    refine Infer.arrayShape_ok.trans ?_
    simp only [get?_instantiate, hs, Option.map_some, Option.some.injEq, exists_eq_left',
      Symbol.instantiate, hsh]
    simp [eq_comm]
  | unary he hs hlaw ih =>
    intro path c
    rw [Traversal.postorder_unary (by cases hlaw <;> rfl)]
    constructor
    · rintro ⟨c₁, h₁, h₂⟩
      obtain ⟨hall, rfl⟩ := ih.1 h₁
      exact ⟨hall, (Infer.shapeNode_unary_instantiate he.part hs hlaw).1 h₂⟩
    · rintro ⟨hall, rfl⟩
      exact ⟨_, ih.2 ⟨hall, rfl⟩, (Infer.shapeNode_unary_instantiate he.part hs hlaw).2 rfl⟩
  | binary hl hr ha hb hlaw ihl ihr =>
    intro path c
    rw [Traversal.postorder_binary (by cases hlaw <;> rfl), List.forall_mem_append,
      List.forall_mem_append]
    constructor
    · rintro ⟨c₁, c₂, h₁, h₂, h₃⟩
      obtain ⟨hall₁, rfl⟩ := ihl.1 h₁
      obtain ⟨hall₂, rfl⟩ := ihr.1 h₂
      obtain ⟨hall₃, rfl⟩ :=
        (Infer.shapeNode_binary_instantiate ht hl.part hr.part ha hb hlaw).1 h₃
      exact ⟨⟨⟨hall₁, hall₂⟩, hall₃⟩, rfl⟩
    · rintro ⟨⟨⟨hall₁, hall₂⟩, hall₃⟩, rfl⟩
      exact ⟨_, _, ihl.2 ⟨hall₁, rfl⟩, ihr.2 ⟨hall₂, rfl⟩,
        (Infer.shapeNode_binary_instantiate ht hl.part hr.part ha hb hlaw).2 ⟨hall₃, rfl⟩⟩
  | scalar he hs ih =>
    intro path c
    rw [Traversal.postorder_unary rfl]
    constructor
    · rintro ⟨c₁, h₁, h₂⟩
      obtain ⟨hall, rfl⟩ := ih.1 h₁
      rw [Infer.shapeNode_scalar_instantiate he.part hs] at h₂
      cases h₂
      exact ⟨hall, rfl⟩
    · rintro ⟨hall, rfl⟩
      exact ⟨_, ih.2 ⟨hall, rfl⟩, Infer.shapeNode_scalar_instantiate he.part hs⟩

theorem no_condition {e e' : Expr} {cs : List Check} (h : Infers t e e' cs) :
    .condition ∉ (e'.instantiate σ).operators := by
  rw [Expr.operators_instantiate]
  exact h.part.no_condition

end Infers

/-- **Shape inference is exact under instantiation.** The instance of a context that is shaped is
itself shaped exactly if the guard at the root is true under the valuation; then nothing is left to
check, and each node has the instance of the shape that it had. -/
theorem Context.inferShapes_instantiate {source : String} {c s : Context}
    (hc : Context.parse source = .ok c) (hs : c.inferShapes = .ok s) (σ : String → Int) :
    (s.guardTest (.ofValuation σ)).isSome ∧
    ((∃ s', (c.instantiate σ).inferShapes = .ok s') ↔
      s.guardTest (.ofValuation σ) = some true) ∧
    ∀ s', (c.instantiate σ).inferShapes = .ok s' →
      .condition ∉ s'.tree.operators ∧ s'.tree = s.consequent.instantiate σ := by
  have hraw := Context.parse_raw hc
  obtain ⟨e', cs, ds, hshaped⟩ := Context.inferShapes_ok hraw hs
  have hiff : ∀ s', (c.instantiate σ).inferShapes = .ok s' ↔
      (∀ d ∈ cs, d.Holds (.ofValuation σ)) ∧ s' = ⟨e'.instantiate σ, c.table.instantiate σ⟩ := by
    intro s'
    unfold Context.inferShapes Traversal.postorder
    rw [Traversal.run_map]
    exact hshaped.infers.instantiate hraw.declared
  have hguard := (hshaped.guardTest_iff (.ofValuation σ)).trans (hshaped.equally σ)
  refine ⟨hshaped.guardTest_isSome fun d hd => ?_, ⟨?_, ?_⟩, ?_⟩
  · exact (hshaped.infers.check_dimension hraw.declared d (hshaped.subset hd)).test_isSome σ
  · rintro ⟨s', hs'⟩
    exact hguard.2 ((hiff s').1 hs').1
  · intro htrue
    exact ⟨_, (hiff _).2 ⟨hguard.1 htrue, rfl⟩⟩
  · intro s' hs'
    obtain ⟨-, rfl⟩ := (hiff s').1 hs'
    rw [hshaped.consequent_eq]
    exact ⟨hshaped.infers.no_condition, rfl⟩

/-- The sum of two matrices whose numbers of rows the guard compares: where both are 4 there is nothing
left to check, where they are 4 and 5 the instance has no shapes. -/
theorem Context.inferShapes_instantiate_sum : ∃ c s,
    Context.parse "A^<n 3> + B^<m 3>" = .ok c ∧ c.inferShapes = .ok s ∧
    let same : String → Int := fun _ => 4
    let other : String → Int := fun name => if name = "n" then 4 else 5
    (s.guardTest (.ofValuation same) = some true ∧
      ∃ s', (c.instantiate same).inferShapes = .ok s' ∧ .condition ∉ s'.tree.operators ∧
        s'.tree.shape = some (Shape.ofInts [4, 3]) ∧
        s'.tree.children.map Expr.shape = [some (Shape.ofInts [4, 3]), some (Shape.ofInts [4, 3])]) ∧
    s.guardTest (.ofValuation other) = some false ∧
      ¬ ∃ s', (c.instantiate other).inferShapes = .ok s' := by
  let same : String → Int := fun _ => 4
  let other : String → Int := fun name => if name = "n" then 4 else 5
  have hrun : (do
      let c ← Context.parse "A^<n 3> + B^<m 3>"
      let s ← c.inferShapes
      let e := s.consequent.instantiate same
      return decide (s.guardTest (.ofValuation same) = some true ∧
        s.guardTest (.ofValuation other) = some false ∧ e.shape = some (Shape.ofInts [4, 3]) ∧
        e.children.map Expr.shape =
          [some (Shape.ofInts [4, 3]), some (Shape.ofInts [4, 3])])) = .ok true := by
    decide +kernel
  obtain ⟨c, hc, hrun⟩ := except_bind_ok.1 hrun
  obtain ⟨s, hs, hrun⟩ := except_bind_ok.1 hrun
  simp only [pure, Except.pure, Except.ok.injEq, decide_eq_true_eq] at hrun
  obtain ⟨hsame, hother, hshape, hshapes⟩ := hrun
  refine ⟨c, s, hc, hs, ⟨hsame, ?_⟩, hother, fun hok => ?_⟩
  · obtain ⟨-, hiff, hinstance⟩ := inferShapes_instantiate hc hs same
    obtain ⟨s', hs'⟩ := hiff.2 hsame
    obtain ⟨hcondition, htree⟩ := hinstance s' hs'
    exact ⟨s', hs', hcondition, htree ▸ hshape, htree ▸ hshapes⟩
  · have htrue := (inferShapes_instantiate hc hs other).2.1.1 hok
    simp [other, hother] at htrue

end PsiCalculus
