import PsiCalculus.Proofs.Numbers
import PsiCalculus.Proofs.Tensor.Axes
import PsiCalculus.Shape.Inference

/-!
# The laws of shapes

Which shape a node has, given those of its operands, and what has to be checked for it:

* `UnaryLaw op s shape`, `BinaryLaw values op l r shape checks`: one rule for each operator that has a
  shape. `values` is what is known of the left operand's value. The checks are all the comparisons the
  operator calls for, the ones that are decided at once among them.
* `Infers t e e' checks`: over the declarations `t` the raw tree `e` is shaped as `e'`, with the
  checks of all its nodes. `Part t e'` says of the shaped tree alone that the laws hold at its nodes.

Shapes and checks are made of dimensions (`Part.dimension`, `Infers.check_dimension`).
-/

namespace PsiCalculus

open SymbolTable

/-- What is known of the value of a leaf. -/
def SymbolTable.valueOf (t : SymbolTable) (e : Expr) : Option Shape :=
  (e.arrayName?.bind t.get?).bind Symbol.value

theorem valueOf_extends {t t' : SymbolTable} (h : Extends t t') {e : Expr} (he : e.Known t) :
    t'.valueOf e = t.valueOf e := by
  unfold valueOf
  cases hn : e.arrayName? with
  | none => rfl
  | some name => rw [Option.bind_some, Option.bind_some, h.get?_eq (he.arrayName hn)]

section
variable {t t' : SymbolTable} {name : String} {values : Shape} {a : Option Shape}

theorem valueOf_literal (hx : Extends t t') (hs : t.get? name = some (.literal values)) :
    t'.valueOf (.array name a) = some values := by
  simp [valueOf, Expr.arrayName?, Expr.array, Expr.name?, hx.get? hs, Symbol.array]

/-- A literal has one value. -/
theorem eq_of_valueOf_literal (hx : Extends t t') (hs : t.get? name = some (.literal values))
    {index : Shape} (hv : t'.valueOf (.array name a) = some index) : index = values :=
  Option.some.inj (hv.symm.trans (valueOf_literal hx hs))

end

namespace Shape

/-- The length two operands share: an integer is preferred to a name. -/
def prefer : Element → Element → Element
  | .symbolic _, .int r => .int r
  | l, _ => l

/-- The checks that two shapes agree. -/
def agreement (l r : Shape) : List Check := List.zipWith (Check.mk .equal) l r

/-- The checks that an index is below the lengths of its axes. -/
def bounds (index shape : Shape) : List Check := List.zipWith (Check.mk .less) index shape

/-- The number of axes that an index vector of length `n` takes away. -/
def indexRank (n : Int) : Nat := if 0 ≤ n then n.toNat else (n + (Text.maxWord + 1)).toNat

end Shape

/-- The shape of a node with one operand. -/
inductive UnaryLaw : Operator → Shape → Shape → Prop
  | transpose {s : Shape} : UnaryLaw .transpose s s.reverse
  | shape {s : Shape} : UnaryLaw .shape s [.int s.length]
  | dim {s : Shape} : UnaryLaw .dim s []
  | reduce {op : ArithOp} {n : Element} {s : Shape} : UnaryLaw (.reduce op) (n :: s) s

/-- The shape of a node with two operands and what it calls for. -/
inductive BinaryLaw (values : Option Shape) :
    Operator → Shape → Shape → Shape → List Check → Prop
  | permute {p l r placed : Shape} {targets : List Int} : values = some p →
      Shape.ints? p = some targets → targets.length = r.length →
      Shape.place? targets r = some placed → BinaryLaw values .permute l r placed []
  | assign {l r : Shape} : l.length = r.length →
      BinaryLaw values .assign l r (List.zipWith Shape.prefer l r) (Shape.agreement l r)
  | psi {n : Int} {r : Shape} : Shape.indexRank n ≤ r.length →
      BinaryLaw values .psi [.int n] r (r.drop (Shape.indexRank n))
        (Shape.bounds (values.getD []) r)
  | scalarLeft {op : ArithOp} {r : Shape} : BinaryLaw values (.arith op) [] r r []
  | scalarRight {op : ArithOp} {l : Shape} : l ≠ [] → BinaryLaw values (.arith op) l [] l []
  | pointwise {op : ArithOp} {l r : Shape} : l ≠ [] → r ≠ [] → l.length = r.length →
      BinaryLaw values (.arith op) l r (List.zipWith Shape.prefer l r) (Shape.agreement l r)
  | outer {op : ArithOp} {l r : Shape} : BinaryLaw values (.outer op) l r (l ++ r) []
  | inner {fold combine : ArithOp} {l r : Shape} {m n : Element} :
      BinaryLaw values (.inner fold combine) (l ++ [m]) (n :: r) (l ++ r) [⟨.equal, m, n⟩]

/-- A raw tree, the tree with its shapes, and the checks of its nodes. A reduction of a scalar is the
scalar. -/
inductive Infers (t : SymbolTable) : Expr → Expr → List Check → Prop
  | leaf {name : String} {s : Symbol} {shape : Shape} : t.get? name = some s →
      s.shape = some shape → Infers t (.array name none) (.array name (some shape)) []
  | unary {op : Operator} {e e' : Expr} {cs : List Check} {s shape : Shape} : Infers t e e' cs →
      e'.shape = some s → UnaryLaw op s shape →
      Infers t (.unary op none e) (.unary op (some shape) e') cs
  | binary {op : Operator} {l r l' r' : Expr} {cs ds checks : List Check} {a b shape : Shape} :
      Infers t l l' cs → Infers t r r' ds → l'.shape = some a → r'.shape = some b →
      BinaryLaw (t.valueOf l') op a b shape checks →
      Infers t (.binary op none l r) (.binary op (some shape) l' r') (cs ++ ds ++ checks)
  | scalar {op : ArithOp} {e e' : Expr} {cs : List Check} : Infers t e e' cs →
      e'.shape = some [] → Infers t (.unary (.reduce op) none e) e' cs

/-! ## Dimensions -/

/-- Both sides of a check are dimensions. -/
def Check.Within (t : SymbolTable) (c : Check) : Prop := t.Dimension c.left ∧ t.Dimension c.right

theorem Check.Within.test_isSome {t : SymbolTable} {c : Check} (h : c.Within t) (σ : String → Int) :
    (c.test (.ofValuation σ)).isSome := by
  have hvalue : ∀ x, t.Dimension x → ∃ n, (Env.ofValuation σ).element x = some n := by
    rintro x (⟨n, rfl⟩ | ⟨name, rfl, -⟩)
    · exact ⟨n, rfl⟩
    · exact ⟨σ name, rfl⟩
  obtain ⟨m, hm⟩ := hvalue c.left h.1
  obtain ⟨n, hn⟩ := hvalue c.right h.2
  simp [Check.test, hm, hn]

theorem Shape.mem_zipWith_prefer : ∀ {l r : Shape} {x : Element},
    x ∈ List.zipWith prefer l r → x ∈ l ∨ x ∈ r
  | [], _, _, h => by simp at h
  | _ :: _, [], _, h => by simp at h
  | a :: l, b :: r, x, h => by
    rcases List.mem_cons.1 h with rfl | h
    · cases a <;> cases b <;> simp [prefer]
    · rcases mem_zipWith_prefer h with h | h
      · exact .inl (.tail _ h)
      · exact .inr (.tail _ h)

theorem mem_zipWith_check {op : CompareOp} : ∀ {l r : Shape} {c : Check},
    c ∈ List.zipWith (Check.mk op) l r → c.left ∈ l ∧ c.right ∈ r
  | [], _, _, h => by simp at h
  | _ :: _, [], _, h => by simp at h
  | a :: l, b :: r, c, h => by
    rcases List.mem_cons.1 h with rfl | h
    · exact ⟨.head _, .head _⟩
    · exact ⟨.tail _ (mem_zipWith_check h).1, .tail _ (mem_zipWith_check h).2⟩

theorem Shape.indexRank_natCast (n : Nat) : indexRank n = n := by
  rw [indexRank, if_pos (by omega)]
  omega

/-- A pointwise operator keeps the number of axes of each operand that has some. -/
theorem BinaryLaw.elementwise {values : Option Shape} {op : Operator} {l r shape : Shape}
    {checks : List Check} (h : BinaryLaw values op l r shape checks)
    (hop : op.isElementwise = true) : (l ≠ [] → shape.length = l.length) ∧
      (r ≠ [] → shape.length = r.length) ∧ (l = [] → r = [] → shape = []) := by
  cases h with
  | scalarLeft => exact ⟨fun h => absurd rfl h, fun _ => rfl, fun _ h => h⟩
  | scalarRight hl => exact ⟨fun _ => rfl, fun h => absurd rfl h, fun h => absurd h hl⟩
  | pointwise hl hr hlen => simp [hlen, hl]
  | permute | assign | psi | outer | inner => cases hop

/-- An inner product takes the last axis of the one and the first axis of the other operand. -/
theorem BinaryLaw.inner_rank {values : Option Shape} {fold combine : ArithOp} {l r shape : Shape}
    {m : Element} {checks : List Check}
    (h : BinaryLaw values (.inner fold combine) (l ++ [m]) r shape checks) :
    shape.length + 1 = l.length + r.length := by
  generalize ha : l ++ [m] = a at h
  cases h with
  | inner =>
    have hlen := congrArg List.length ha
    simp only [List.length_append, List.length_cons, List.length_nil] at hlen ⊢
    omega

/-- A law makes up no names. -/
theorem UnaryLaw.mem {op : Operator} {s shape : Shape} (h : UnaryLaw op s shape) {x : Element}
    (hx : x ∈ shape) : (∃ n, x = .int n) ∨ x ∈ s := by
  cases h with
  | transpose => exact .inr (List.mem_reverse.1 hx)
  | shape => exact .inl ⟨_, List.mem_singleton.1 hx⟩
  | dim => cases hx
  | reduce => exact .inr (.tail _ hx)

theorem BinaryLaw.mem {values : Option Shape} {op : Operator} {l r shape : Shape}
    {checks : List Check} (h : BinaryLaw values op l r shape checks) {x : Element}
    (hx : x ∈ shape) : x ∈ l ∨ x ∈ r := by
  cases h with
  | permute _ _ hlen hp => exact .inr (Shape.subset_of_place? hlen hp hx)
  | assign _ | pointwise _ _ _ => exact Shape.mem_zipWith_prefer hx
  | psi _ => exact .inr (List.mem_of_mem_drop hx)
  | scalarLeft => exact .inr hx
  | scalarRight _ => exact .inl hx
  | outer => exact List.mem_append.1 hx
  | inner => exact (List.mem_append.1 hx).imp (List.mem_append_left _) (.tail _)

theorem UnaryLaw.dimension {t : SymbolTable} {op : Operator} {s shape : Shape}
    (h : UnaryLaw op s shape) (hs : ∀ x ∈ s, t.Dimension x) : ∀ x ∈ shape, t.Dimension x :=
  fun x hx => (h.mem hx).elim .inl (hs x)

theorem BinaryLaw.dimension {t : SymbolTable} {values : Option Shape} {op : Operator}
    {l r shape : Shape} {checks : List Check} (h : BinaryLaw values op l r shape checks)
    (hl : ∀ x ∈ l, t.Dimension x) (hr : ∀ x ∈ r, t.Dimension x) : ∀ x ∈ shape, t.Dimension x :=
  fun x hx => (h.mem hx).elim (hl x) (hr x)

theorem BinaryLaw.check_dimension {t : SymbolTable} {values : Option Shape} {op : Operator}
    {l r shape : Shape} {checks : List Check} (h : BinaryLaw values op l r shape checks)
    (hv : ∀ x ∈ values.getD [], t.Dimension x) (hl : ∀ x ∈ l, t.Dimension x)
    (hr : ∀ x ∈ r, t.Dimension x) : ∀ c ∈ checks, c.Within t := by
  intro c hc
  cases h with
  | assign _ | pointwise _ _ _ =>
    exact ⟨hl _ (mem_zipWith_check hc).1, hr _ (mem_zipWith_check hc).2⟩
  | psi _ => exact ⟨hv _ (mem_zipWith_check hc).1, hr _ (mem_zipWith_check hc).2⟩
  | inner =>
    rw [List.mem_singleton.1 hc]
    exact ⟨hl _ (by simp), hr _ (.head _)⟩
  | permute _ _ _ _ | scalarLeft | scalarRight _ | outer => cases hc

/-- The value of a literal is made of dimensions. -/
theorem SymbolTable.Declared.value_dimension {t : SymbolTable} (ht : t.Declared) (e : Expr) :
    ∀ x ∈ (t.valueOf e).getD [], t.Dimension x := by
  intro x hx
  unfold valueOf at hx
  cases hn : e.arrayName?.bind t.get? with
  | none => simp [hn] at hx
  | some s =>
    obtain ⟨name, -, hs⟩ := Option.bind_eq_some_iff.1 hn
    rw [hn, Option.bind_some] at hx
    cases ht.entry hs with
    | user => cases hx
    | literal _ hv => exact hv x hx

/-! ## Shaped trees -/

/-- A part of a tree that is shaped over `t`. -/
inductive Part (t : SymbolTable) : Expr → Prop
  | leaf {name : String} {s : Symbol} {shape : Shape} : t.get? name = some s →
      s.shape = some shape → Part t (.array name (some shape))
  | unary {op : Operator} {e : Expr} {s shape : Shape} : Part t e → e.shape = some s →
      UnaryLaw op s shape → Part t (.unary op (some shape) e)
  | binary {op : Operator} {l r : Expr} {a b shape : Shape} {checks : List Check} : Part t l →
      Part t r → l.shape = some a → r.shape = some b →
      BinaryLaw (t.valueOf l) op a b shape checks → Part t (.binary op (some shape) l r)

theorem Infers.part {t : SymbolTable} {e e' : Expr} {cs : List Check} (h : Infers t e e' cs) :
    Part t e' := by
  induction h with
  | leaf hs hsh => exact .leaf hs hsh
  | unary _ hs hlaw ih => exact .unary ih hs hlaw
  | binary _ _ ha hb hlaw ihl ihr => exact .binary ihl ihr ha hb hlaw
  | scalar _ _ ih => exact ih

namespace Part

variable {t : SymbolTable} {e : Expr}

theorem known (h : Part t e) : e.Known t := by
  induction h with
  | leaf hs => exact .array (mem_names_of_get? hs) _
  | unary _ _ _ ih => exact ih.unary
  | binary _ _ _ _ _ ihl ihr => exact ihl.binary ihr

theorem exists_shape (h : Part t e) : ∃ s, e.shape = some s := by
  cases h <;> exact ⟨_, rfl⟩

theorem op_ne_condition (h : Part t e) : e.op ≠ .condition := by
  cases h with
  | leaf => simp [Expr.array]
  | unary _ _ hlaw => cases hlaw <;> simp [Expr.unary]
  | binary _ _ _ _ hlaw => cases hlaw <;> simp [Expr.binary]

theorem child (h : Part t e) {c : Expr} (hc : c ∈ e.children) : Part t c := by
  cases h with
  | leaf => cases hc
  | unary he => exact List.mem_singleton.1 hc ▸ he
  | binary hl hr =>
    rcases List.mem_pair.1 hc with rfl | rfl
    · exact hl
    · exact hr

theorem leaf_get? (h : Part t e) {name : String} (hn : e.arrayName? = some name) :
    ∃ s, t.get? name = some s := by
  cases hs : t.get? name with
  | none => exact absurd (h.known.arrayName hn) (get?_eq_none_iff.1 hs)
  | some s => exact ⟨s, rfl⟩

/-- A name in a shape is a name in the shape of an entry. -/
theorem mem_shape (h : Part t e) : ∀ {s : Shape} {x : Element}, e.shape = some s → x ∈ s →
    (∃ n, x = .int n) ∨
      ∃ name symbol shape, t.get? name = some symbol ∧ symbol.shape = some shape ∧ x ∈ shape := by
  induction h with
  | leaf hs hsh =>
    intro s x hshape hx
    cases hshape
    exact .inr ⟨_, _, _, hs, hsh, hx⟩
  | unary _ hs hlaw ih =>
    intro s x hshape hx
    cases hshape
    exact (hlaw.mem hx).elim .inl (ih hs)
  | binary _ _ ha hb hlaw ihl ihr =>
    intro s x hshape hx
    cases hshape
    exact (hlaw.mem hx).elim (ihl ha) (ihr hb)

theorem dimension (h : Part t e) (ht : t.Declared) {s : Shape} (hs : e.shape = some s) :
    ∀ x ∈ s, t.Dimension x := by
  intro x hx
  rcases h.mem_shape hs hx with hint | ⟨name, symbol, shape, hget, hshape, hmem⟩
  · exact .inl hint
  · exact ht.sound.shape_element hget hshape x hmem

end Part

theorem Infers.dimension {t : SymbolTable} (ht : t.Declared) {e e' : Expr} {cs : List Check}
    (h : Infers t e e' cs) {s : Shape} (hs : e'.shape = some s) : ∀ x ∈ s, t.Dimension x :=
  h.part.dimension ht hs

theorem Infers.check_dimension {t : SymbolTable} (ht : t.Declared) {e e' : Expr} {cs : List Check}
    (h : Infers t e e' cs) : ∀ c ∈ cs, c.Within t := by
  induction h with
  | leaf => simp
  | unary _ _ _ ih | scalar _ _ ih => exact ih
  | binary hl hr ha hb hlaw ihl ihr =>
    intro c hc
    simp only [List.mem_append] at hc
    rcases hc with (hc | hc) | hc
    · exact ihl c hc
    · exact ihr c hc
    · exact hlaw.check_dimension (ht.value_dimension _) (hl.dimension ht ha) (hr.dimension ht hb) c hc

end PsiCalculus
