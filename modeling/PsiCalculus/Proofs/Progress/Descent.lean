import PsiCalculus.Proofs.Progress.Traversal
import PsiCalculus.Proofs.NormalForm.FreeIndices
import PsiCalculus.Proofs.Tensor.Fragment

/-!
# Indices that come down

Each rule has failures of its own: an index vector without known values, an index that is shorter than
the axes it is for, a product of scalars. None of them is met, since every index vector has exactly as
many elements as the operand that it indexes has axes.

* `Ranked t e n`: the shaped tree `e` of the fragment has `n` axes, and so have its parts as many as
  their operators call for. `Ranked.rewrite_attains`: no rule fails on such a tree.
* `Descent t P e`: indices are on their way down in `e`: every index vector is complete, and the
  operators that are still indexed are in `P`. `Pushes.descent`: so it is after a rewrite.
* `advances`: each visit brings the indices further down, so that a traversal succeeds.
-/

namespace PsiCalculus

open SymbolTable

/-! ## Trees and their numbers of axes -/

/-- A shaped tree of the fragment and the number of its axes. -/
inductive Ranked (t : SymbolTable) : Expr → Nat → Prop
  | leaf {name : String} {s : Shape} : Ranked t (.array name (some s)) s.length
  | query {op : Operator} {name : String} {a : Option Shape} {s : Shape} :
      op = .shape ∨ op = .dim → Ranked t (.unary op (some s) (.array name a)) s.length
  | transpose {e : Expr} {s : Shape} : Ranked t e s.length →
      Ranked t (.unary .transpose (some s) e) s.length
  | permute {p : String} {a : Option Shape} {values s : Shape} {targets : List Int} {e : Expr} :
      t.get? p = some (.literal values) → Shape.ints? values = some targets →
      targets.Perm (Tensor.places s.length) → Ranked t e s.length →
      Ranked t (.binary .permute (some s) (.array p a) e) s.length
  | psi {v : String} {a : Option Shape} {values s : Shape} {e : Expr} :
      t.get? v = some (.literal values) → Ranked t e (values.length + s.length) →
      Ranked t (.binary .psi (some s) (.array v a) e) s.length
  | arith {op : ArithOp} {l r : Expr} {m n : Nat} {s : Shape} : Ranked t l m → Ranked t r n →
      m = 0 ∨ m = s.length → n = 0 ∨ n = s.length →
      Ranked t (.binary (.arith op) (some s) l r) s.length
  | outer {op : ArithOp} {l r : Expr} {m n : Nat} {s : Shape} : Ranked t l m → Ranked t r n →
      s.length = m + n → Ranked t (.binary (.outer op) (some s) l r) s.length
  | inner {fold join : ArithOp} {l r : Expr} {m n : Nat} {s : Shape} : Ranked t l (m + 1) →
      Ranked t r (n + 1) → s.length = m + n →
      Ranked t (.binary (.inner fold join) (some s) l r) s.length
  | reduce {op : ArithOp} {e : Expr} {s : Shape} : Ranked t e (s.length + 1) →
      Ranked t (.unary (.reduce op) (some s) e) s.length

section
variable {t t' : SymbolTable} {e e' X : Expr} {n : Nat} {index : Shape}

theorem Ranked.exists_shape (h : Ranked t e n) : ∃ s, e.shape = some s ∧ s.length = n := by
  cases h <;> exact ⟨_, rfl, rfl⟩

theorem Ranked.mono (hx : Extends t t') (h : Ranked t e n) : Ranked t' e n := by
  induction h with
  | leaf => exact .leaf
  | query hop => exact .query hop
  | transpose _ ih => exact .transpose ih
  | permute hp hints hperm _ ih => exact .permute (hx.get? hp) hints hperm ih
  | psi hv _ ih => exact .psi (hx.get? hv) ih
  | arith _ _ hm hn ihl ihr => exact .arith ihl ihr hm hn
  | outer _ _ hlen ihl ihr => exact .outer ihl ihr hlen
  | inner _ _ hlen ihl ihr => exact .inner ihl ihr hlen
  | reduce _ ih => exact .reduce ih

theorem Fragment.ranked {s : Shape} {cs : List Check} (h : Fragment t e s cs) :
    Ranked t e s.length := by
  induction h with
  | leaf => exact .leaf
  | shape => exact .query (.inl rfl)
  | dim => exact .query (.inr rfl)
  | transpose _ ih =>
    rw [← List.length_reverse] at ih
    exact .transpose ih
  | reduce _ ih => exact .reduce ih
  | permute hp hints hlen hplaced _ ih =>
    obtain ⟨hperm, hrank, -⟩ := Shape.gathers_of_place? hlen hplaced
    rw [← hrank] at hperm ih
    exact .permute hp hints hperm ih
  | @psi _ _ values s _ _ hv hlen _ ih =>
    have hrank : s.length = values.length + (s.drop values.length).length := by
      rw [List.length_drop]
      omega
    rw [hrank] at ih
    exact .psi hv ih
  | @arith _ _ _ a b _ _ _ _ _ _ hlaw ihl ihr =>
    obtain ⟨hla, hrb, -⟩ := hlaw.elementwise rfl
    refine .arith ihl ihr ?_ ?_
    · by_cases ha : a = []
      · exact .inl (List.length_eq_zero_iff.2 ha)
      · exact .inr (hla ha).symm
    · by_cases hb : b = []
      · exact .inl (List.length_eq_zero_iff.2 hb)
      · exact .inr (hrb hb).symm
  | outer _ _ ihl ihr => exact .outer ihl ihr List.length_append
  | inner _ _ ihl ihr =>
    rw [List.length_append, List.length_singleton] at ihl
    exact .inner ihl ihr List.length_append

/-- **A shaped tree of the fragment has a number of axes.** -/
theorem Infers.ranked (ht : t.Declared) {cs : List Check} (h : Infers t e e' cs)
    (hfrag : e.inFragment = true) : ∃ n, Ranked t e' n := by
  obtain ⟨s, hs⟩ := h.part.exists_shape
  exact ⟨s.length, (h.fragment ht hfrag hs).ranked⟩

end

/-! ## Rules that succeed -/

namespace Rule

variable {t : SymbolTable} {bound n : Nat}

theorem shapeOf_run {e : Expr} {s : Shape} (h : e.shape = some s) :
    (shapeOf e).run t = .ok (s, t) := by
  rw [shapeOf, h]
  rfl

theorem indexed_attains (s : Option Shape) (elements : Shape) (X : Expr)
    (h : t.Room bound (n + 1)) :
    Attains bound (fun p => p.2.Room bound n) ((indexed s elements X).run t) :=
  (Grow.array_attains _ _ h).bind_run fun _ _ hroom => .ok hroom

theorem pushOperand_attains (s : Option Shape) (v : Expr) {X : Expr} {shape : Shape}
    (hs : X.shape = some shape) (h : t.Room bound (n + 1)) :
    Attains bound (fun p => p.2.Room bound n) ((pushOperand s v X).run t) := by
  unfold pushOperand
  split
  · exact .ok (h.mono (Nat.le_succ n))
  · refine .bind_run_of_ok (shapeOf_run hs) ?_
    split
    · exact indexed_attains s [] X h
    · exact .ok (h.mono (Nat.le_succ n))

/-- The rule for the operator that is indexed decides. -/
theorem rewrite_attains {s : Option Shape} {v X : Expr} {rule : Rule}
    (hrule : ruleFor? X.op = some rule)
    (h : Attains bound (fun p => p.2.Room bound n) ((rule.apply (.binary .psi s v X)).run t)) :
    Attains bound (fun r => ∀ c, r = some c → c.table.Room bound n)
      (rewrite ⟨.binary .psi s v X, t⟩) := by
  have hgrow : Attains bound (fun c => c.table.Room bound n)
      (Context.grow ⟨.binary .psi s v X, t⟩ (rule.apply (.binary .psi s v X))) :=
    Context.grow_attains h
  unfold rewrite
  simp only [find?_psi, hrule]
  exact hgrow.map fun c hc c' heq => Option.some.inj heq ▸ hc

end Rule

/-- **No rule fails on an indexed tree of the fragment.** -/
theorem Ranked.rewrite_attains {t : SymbolTable} {bound n : Nat} {s a : Option Shape} {v : String}
    {index : Shape} {X : Expr} (hv : t.get? v = some (.literal index))
    (hX : Ranked t X index.length) (hroom : t.Room bound (n + 3)) :
    Attains bound (fun r => ∀ c, r = some c → c.table.Room bound n)
      (Rule.rewrite ⟨.binary .psi s (.array v a) X, t⟩) := by
  have hroom₁ : t.Room bound (n + 1) := hroom.mono (by omega)
  have hroom₂ : t.Room bound (n + 1 + 1) := hroom.mono (by omega)
  have hliteral : ∀ {w : String} {b : Option Shape} {values : Shape},
      t.get? w = some (.literal values) → (Rule.elements (.array w b)).run t = .ok (values, t) :=
    fun h => Rule.elements_run (valueOf_literal (.refl t) h)
  generalize hn : index.length = m at hX
  cases hX with
  | leaf => exact .ok fun c hc => by cases hc
  | query hop =>
    rcases hop with rfl | rfl
    · exact .ok fun c hc => by cases hc
    · exact .ok fun c hc => by cases hc
  | transpose he =>
    obtain ⟨shape, hs, hlen⟩ := he.exists_shape
    refine Rule.rewrite_attains rfl (.bind_run_of_ok rfl (.bind_run_of_ok rfl
      (.bind_run_of_ok (hliteral hv) (.bind_run_of_ok (Rule.shapeOf_run hs) ?_))))
    rw [if_neg (by rw [hn, hlen]; exact fun h => h rfl)]
    exact Rule.indexed_attains _ _ _ hroom₁
  | @permute _ _ _ _ targets _ hp hints hperm _ =>
    obtain ⟨arranged, hgathers⟩ : ∃ arranged, Shape.Gathers targets index arranged :=
      Shape.Gathers.exists_of_perm (hn ▸ hperm)
    have harranged := (Shape.arrange?_eq_some_iff hints).2 hgathers
    refine Rule.rewrite_attains rfl (.bind_run_of_ok rfl (.bind_run_of_ok rfl
      (.bind_run_of_ok (hliteral hv) (.bind_run_of_ok (hliteral hp) ?_))))
    rw [harranged]
    exact Rule.indexed_attains _ _ _ hroom₁
  | psi hw _ =>
    exact Rule.rewrite_attains rfl (.bind_run_of_ok rfl (.bind_run_of_ok rfl
      (.bind_run_of_ok (hliteral hw) (.bind_run_of_ok (hliteral hv)
        (Rule.indexed_attains _ _ _ hroom₁)))))
  | arith hl hr =>
    obtain ⟨a, ha, -⟩ := hl.exists_shape
    obtain ⟨b, hb, -⟩ := hr.exists_shape
    refine Rule.rewrite_attains rfl (.bind_run_of_ok rfl (.bind_run_of_ok rfl
      ((Rule.pushOperand_attains _ _ ha hroom₂).bind_run fun _ _ hroom₃ => ?_)))
    exact (Rule.pushOperand_attains _ _ hb hroom₃).bind_run fun _ _ hroom₄ => .ok hroom₄
  | outer hl _ hlen =>
    obtain ⟨a, ha, hm⟩ := hl.exists_shape
    refine Rule.rewrite_attains rfl (.bind_run_of_ok rfl (.bind_run_of_ok rfl
      (.bind_run_of_ok (hliteral hv) (.bind_run_of_ok (Rule.shapeOf_run ha) ?_))))
    rw [if_neg (by omega)]
    refine (Rule.indexed_attains _ _ _ hroom₂).bind_run fun _ _ hroom₃ => ?_
    exact (Rule.indexed_attains _ _ _ hroom₃).bind_run fun _ _ hroom₄ => .ok hroom₄
  | inner hl _ hlen =>
    obtain ⟨a, ha, hm⟩ := hl.exists_shape
    obtain ⟨bound', hlast⟩ : ∃ x, a.getLast? = some x := by
      cases a with
      | nil => simp at hm
      | cons x xs => exact ⟨_, List.getLast?_cons⟩
    refine Rule.rewrite_attains rfl (.bind_run_of_ok rfl (.bind_run_of_ok rfl
      (.bind_run_of_ok (hliteral hv) (.bind_run_of_ok (Rule.shapeOf_run ha) ?_))))
    rw [hlast]
    simp only
    rw [if_neg (by omega)]
    refine (Grow.fresh_attains _ hroom).bind_run fun _ _ hroom₃ => ?_
    refine (Rule.indexed_attains _ _ _ hroom₃).bind_run fun _ _ hroom₄ => ?_
    exact (Rule.indexed_attains _ _ _ hroom₄).bind_run fun _ _ hroom₅ => .ok hroom₅
  | reduce he =>
    obtain ⟨shape, hs, hlen⟩ := he.exists_shape
    obtain ⟨bound', rest, rfl⟩ := List.exists_cons_of_length_eq_add_one hlen
    refine Rule.rewrite_attains rfl (.bind_run_of_ok rfl (.bind_run_of_ok rfl
      (.bind_run_of_ok (hliteral hv) (.bind_run_of_ok (Rule.shapeOf_run hs) ?_))))
    refine (Grow.fresh_attains _ hroom₂).bind_run fun _ _ hroom₃ => ?_
    exact (Rule.indexed_attains _ _ _ hroom₃).bind_run fun _ _ hroom₄ => .ok hroom₄

/-! ## Indices on their way down -/

namespace Expr

/-- The replacements that the root of a tree takes at most. -/
def steps : Expr → Nat
  | .node .psi _ _ [_, operand] => operand.size
  | _ => 0

mutual

/-- The levels of a tree while its indices are pushed down, two for each node of an indexed operand. -/
def levels : Expr → Nat
  | .node .psi _ _ [_, operand] => 2 * operand.size
  | .node _ _ _ children => levelsAll children + 1
termination_by structural e => e

/-- The levels of several trees side by side. -/
def levelsAll : List Expr → Nat
  | [] => 0
  | c :: cs => max c.levels (levelsAll cs)
termination_by structural cs => cs

end

mutual

/-- The symbols that are entered to push the indices of a tree down, at most: three for each node of
an indexed operand. -/
def demand : Expr → Nat
  | .node .psi _ _ [_, operand] => 3 * operand.size
  | .node _ _ _ children => demandAll children
termination_by structural e => e

/-- The symbols for several trees. -/
def demandAll : List Expr → Nat
  | [] => 0
  | c :: cs => c.demand + demandAll cs
termination_by structural cs => cs

end

section
variable (s : Option Shape) (v l r e : Expr) (name : String)

@[simp] theorem size_array : (Expr.array name s).size = 1 := rfl
@[simp] theorem size_one (op : Operator) (p : Payload) :
    (Expr.node op s p [e]).size = 1 + e.size := rfl
@[simp] theorem size_two (op : Operator) (p : Payload) :
    (Expr.node op s p [l, r]).size = 1 + (l.size + r.size) := rfl

@[simp] theorem steps_psi : (Expr.binary .psi s v e).steps = e.size := rfl
@[simp] theorem steps_arith (op : ArithOp) : (Expr.binary (.arith op) s l r).steps = 0 := rfl
@[simp] theorem steps_fold (op : ArithOp) :
    (Expr.node (.reduce op) s (.name name) [e]).steps = 0 := rfl

@[simp] theorem levels_array : (Expr.array name s).levels = 1 := rfl
@[simp] theorem levels_psi : (Expr.binary .psi s v e).levels = 2 * e.size := rfl
@[simp] theorem levels_arith (op : ArithOp) :
    (Expr.binary (.arith op) s l r).levels = max l.levels r.levels + 1 := by
  simp [Expr.binary, levels, levelsAll]
@[simp] theorem levels_fold (op : ArithOp) :
    (Expr.node (.reduce op) s (.name name) [e]).levels = e.levels + 1 := by
  simp [levels, levelsAll]

@[simp] theorem demand_array : (Expr.array name s).demand = 0 := rfl
@[simp] theorem demand_psi : (Expr.binary .psi s v e).demand = 3 * e.size := rfl
@[simp] theorem demand_arith (op : ArithOp) :
    (Expr.binary (.arith op) s l r).demand = l.demand + r.demand := rfl
@[simp] theorem demand_fold (op : ArithOp) :
    (Expr.node (.reduce op) s (.name name) [e]).demand = e.demand := rfl

end

end Expr

/-- A name, or the shape or the rank of one, where indices stop. -/
inductive Simple : Expr → Prop
  | leaf {name : String} {a : Option Shape} : Simple (.array name a)
  | query {op : Operator} {s a : Option Shape} {name : String} : op = .shape ∨ op = .dim →
      Simple (.unary op s (.array name a))

/-- Indices on their way down: every index vector has an element for each axis of its operand, and the
operators that are still indexed are in `P`. -/
inductive Descent (t : SymbolTable) (P : Operator → Prop) : Expr → Prop
  | simple {e : Expr} : Simple e → Descent t P e
  | psi {s a : Option Shape} {v : String} {index : Shape} {X : Expr} :
      t.get? v = some (.literal index) → Ranked t X index.length → P X.op →
      Descent t P (.binary .psi s (.array v a) X)
  | arith {op : ArithOp} {s : Option Shape} {l r : Expr} : Descent t P l → Descent t P r →
      Descent t P (.binary (.arith op) s l r)
  | fold {op : ArithOp} {s : Option Shape} {k : String} {bound : Element} {body : Expr} :
      t.get? k = some (.index bound) → Descent t P body →
      Descent t P (.node (.reduce op) s (.name k) [body])

/-- All operators. -/
abbrev Operator.Any (_ : Operator) : Prop := True

/-- No rule is about the operator: it stays indexed. -/
abbrev Operator.Stuck (op : Operator) : Prop := Rule.ruleFor? op = none

section
variable {t t' : SymbolTable} {P : Operator → Prop} {s a : Option Shape} {v : String} {index : Shape}
  {X e : Expr}

theorem Descent.mono (hx : Extends t t') (h : Descent t P e) : Descent t' P e := by
  induction h with
  | simple he => exact .simple he
  | psi hv hX hP => exact .psi (hx.get? hv) (hX.mono hx) hP
  | arith _ _ ihl ihr => exact .arith ihl ihr
  | fold hk _ ih => exact .fold (hx.get? hk) ih

theorem NewVector.literal {elements : Shape} {u : Expr} (h : NewVector t elements u t') :
    Extends t t' ∧ ∃ name, u = .array name (some [.int elements.length]) ∧
      t'.get? name = some (.literal elements) := by
  obtain ⟨name, -, hadds, rfl⟩ := h.exists_name
  exact ⟨hadds.grows, name, rfl, hadds.get?_self⟩

/-- An operand under a new index that has an element for each of its axes. -/
theorem NewVector.descent {t₀ : SymbolTable} {elements : Shape} {u : Expr}
    (h : NewVector t elements u t') (hx : Extends t₀ t) (hX : Ranked t₀ X elements.length) :
    Descent t' Operator.Any (.binary .psi s u X) := by
  obtain ⟨hx', name, rfl, hname⟩ := h.literal
  exact .psi hname (hX.mono (hx.trans hx')) trivial

theorem PushesOperand.descent {m : Nat} (hv : t.get? v = some (.literal index)) (hX : Ranked t X m)
    (hm : m = 0 ∨ m = index.length) (h : PushesOperand t s (.array v a) X e t') :
    Extends t t' ∧ Descent t' Operator.Any e ∧ e.demand ≤ 3 * X.size ∧ e.levels ≤ 2 * X.size := by
  obtain ⟨shape, hs, hlen⟩ := hX.exists_shape
  cases h with
  | leaf hop =>
    cases hX with
    | leaf => exact ⟨.refl _, .simple .leaf, by simp, by simp⟩
    | query hquery => rcases hquery with rfl | rfl <;> cases hop
    | transpose | reduce => cases hop
    | permute | psi | arith | outer | inner => cases hop
  | scalar hshape hu =>
    cases hs.symm.trans hshape
    exact ⟨hu.literal.1, hu.descent (.refl _) (by rwa [hlen]), by simp, by simp⟩
  | array hshape hne =>
    cases hs.symm.trans hshape
    have hindex : m = index.length := by
      refine hm.resolve_left ?_
      rintro rfl
      exact hne (List.length_eq_zero_iff.1 hlen)
    exact ⟨.refl _, .psi hv (hindex ▸ hX) trivial, by simp, by simp⟩

/-- **A rewrite keeps indices complete.** It uses up a node of the operand, at the price of three
symbols and two levels. -/
theorem Pushes.descent (hv : t.get? v = some (.literal index)) (hX : Ranked t X index.length)
    (h : Pushes t s (.array v a) X e t') :
    Extends t t' ∧ Descent t' Operator.Any e ∧ e.demand + 3 ≤ 3 * X.size ∧
      e.levels ≤ 2 * X.size ∧ e.steps < X.size := by
  have hvalue : ∀ {index'}, t.valueOf (.array v a) = some index' → index' = index :=
    eq_of_valueOf_literal (.refl t) hv
  generalize hn : index.length = n at hX
  cases h with
  | assign => cases hX
  | psi hfirst hsecond hu =>
    cases hvalue hsecond
    cases hX with
    | psi hw hX =>
      cases eq_of_valueOf_literal (.refl t) hw hfirst
      refine ⟨hu.literal.1, hu.descent (.refl _) ?_, ?_⟩
      · rwa [List.length_append, hn]
      · simp only [Expr.demand_psi, Expr.levels_psi, Expr.steps_psi, Expr.size_two]
        omega
  | transpose hindex _ _ hu =>
    cases hvalue hindex
    cases hX with
    | transpose hX =>
      refine ⟨hu.literal.1, hu.descent (.refl _) ?_, ?_⟩
      · rwa [List.length_reverse, hn]
      · simp only [Expr.demand_psi, Expr.levels_psi, Expr.steps_psi, Expr.size_one]
        omega
    | query hop => rcases hop with hop | hop <;> cases hop
  | permute hindex hplaces harranged hu =>
    cases hvalue hindex
    cases hX with
    | permute hp hints hperm hX =>
      cases eq_of_valueOf_literal (.refl t) hp hplaces
      refine ⟨hu.literal.1, hu.descent (.refl _) ?_, ?_⟩
      · rwa [((Shape.arrange?_eq_some_iff hints).1 harranged).length_eq, hperm.length_eq,
          Tensor.length_places]
      · simp only [Expr.demand_psi, Expr.levels_psi, Expr.steps_psi, Expr.size_two]
        omega
  | elementwise hop hl hr =>
    cases hX with
    | arith hL hR hm hn' =>
      obtain ⟨hx₁, hl', hdl, hll⟩ := hl.descent hv hL (hn ▸ hm)
      obtain ⟨hx₂, hr', hdr, hlr⟩ := hr.descent (hx₁.get? hv) (hR.mono hx₁) (hn ▸ hn')
      refine ⟨hx₁.trans hx₂, .arith (hl'.mono hx₂) hr', ?_⟩
      simp only [Expr.demand_arith, Expr.levels_arith, Expr.steps_arith, Expr.size_two]
      omega
    | permute | psi | outer | inner => cases hop
  | outer hindex hshape _ hu hw =>
    cases hvalue hindex
    cases hX with
    | outer hL hR hlen =>
      obtain ⟨a, ha, hm⟩ := hL.exists_shape
      cases hshape.symm.trans ha
      obtain ⟨hx₁, -⟩ := hu.literal
      obtain ⟨hx₂, -⟩ := hw.literal
      refine ⟨hx₁.trans hx₂, .arith ((hu.descent (.refl _) ?_).mono hx₂) (hw.descent hx₁ ?_), ?_⟩
      · rwa [List.length_take, Nat.min_eq_left (by omega), hm]
      · rwa [List.length_drop, hm, hn, hlen, Nat.add_sub_cancel_left]
      · simp only [Expr.demand_arith, Expr.demand_psi, Expr.levels_arith, Expr.levels_psi,
          Expr.steps_arith, Expr.size_two]
        omega
  | inner hindex hshape _ _ hk hu hw =>
    cases hvalue hindex
    cases hX with
    | inner hL hR hlen =>
      obtain ⟨a, ha, hm⟩ := hL.exists_shape
      cases hshape.symm.trans ha
      rw [List.length_append, List.length_singleton] at hm
      obtain ⟨hx₂, -⟩ := hu.literal
      obtain ⟨hx₃, -⟩ := hw.literal
      have hx₁ := hk.grows
      refine ⟨hx₁.trans (hx₂.trans hx₃), .fold ((hx₂.trans hx₃).get? hk.get?_self)
        (.arith ((hu.descent hx₁ ?_).mono hx₃) (hw.descent (hx₁.trans hx₂) ?_)), ?_⟩
      · rw [List.length_append, List.length_take, Nat.min_eq_left (by omega), List.length_singleton,
          hm]
        exact hL
      · rw [List.length_cons, List.length_drop, hn, hlen, Nat.succ.inj hm, Nat.add_sub_cancel_left]
        exact hR
      · simp only [Expr.demand_fold, Expr.demand_arith, Expr.demand_psi, Expr.levels_fold,
          Expr.levels_arith, Expr.levels_psi, Expr.steps_fold, Expr.size_two]
        omega
  | reduce hindex hshape _ hk hu =>
    cases hvalue hindex
    cases hX with
    | reduce hX =>
      obtain ⟨hx₂, -⟩ := hu.literal
      have hx₁ := hk.grows
      refine ⟨hx₁.trans hx₂, .fold (hx₂.get? hk.get?_self) (hu.descent hx₁ ?_), ?_⟩
      · rwa [List.length_cons, hn]
      · simp only [Expr.demand_fold, Expr.demand_psi, Expr.levels_fold, Expr.levels_psi,
          Expr.steps_fold, Expr.size_one]
        omega
    | query hop => rcases hop with hop | hop <;> cases hop

end

/-! ## The traversal -/

section
variable {t : SymbolTable} {e c : Expr}

theorem Simple.op_ne_psi (h : Simple e) : e.op ≠ .psi := by
  cases h with
  | leaf => simp [Expr.array]
  | query hop => rcases hop with rfl | rfl <;> simp [Expr.unary]

theorem Simple.steps_eq (h : Simple e) : e.steps = 0 := by
  cases h with
  | leaf => rfl
  | query hop => rcases hop with rfl | rfl <;> rfl

theorem Simple.levels_eq (h : Simple e) : e.levels = e.size := by
  cases h with
  | leaf => rfl
  | query hop => rcases hop with rfl | rfl <;> rfl

theorem Simple.demand_eq (h : Simple e) : e.demand = 0 := by
  cases h with
  | leaf => rfl
  | query hop => rcases hop with rfl | rfl <;> rfl

theorem Simple.arity (h : Simple e) : e.op.arity.accepts e.children.length = true := by
  cases h with
  | leaf => rfl
  | query hop => rcases hop with rfl | rfl <;> rfl

theorem Simple.child (h : Simple e) (hc : c ∈ e.children) : Simple c ∧ c.size < e.size := by
  cases h with
  | leaf => cases hc
  | query =>
    cases List.mem_singleton.1 hc
    exact ⟨.leaf, Expr.size_child hc⟩

theorem Ranked.simple {n : Nat} (h : Ranked t e n) (hop : e.op.Stuck) : Simple e := by
  cases h with
  | leaf => exact .leaf
  | query hquery => exact .query hquery
  | transpose | reduce => cases hop
  | permute | psi | arith | outer | inner => cases hop

namespace Descent

variable {P : Operator → Prop}

theorem levels_pos (h : Descent t P e) : 0 < e.levels := by
  cases h with
  | simple he => exact he.levels_eq ▸ e.size_pos
  | @psi _ _ _ _ X =>
    have := X.size_pos
    rw [Expr.levels_psi]
    omega
  | arith | fold => simp

theorem steps_le (h : Descent t P e) : 2 * e.steps ≤ e.levels := by
  cases h with
  | simple he => rw [he.steps_eq]; omega
  | psi => simp
  | arith | fold => simp

theorem arity (h : Descent t P e) : e.op.arity.accepts e.children.length = true := by
  cases h with
  | simple he => exact he.arity
  | psi | arith | fold => rfl

theorem of_psi (h : Descent t P e) (hop : e.op = .psi) : ∃ s a v index X,
    e = .binary .psi s (.array v a) X ∧ t.get? v = some (.literal index) ∧
      Ranked t X index.length := by
  cases h with
  | simple he => exact absurd hop he.op_ne_psi
  | psi hv hX => exact ⟨_, _, _, _, _, rfl, hv, hX⟩
  | arith | fold => cases hop

/-- Operands of a node that no rule is about. -/
theorem child (h : Descent t Operator.Any e) (hnone : Rule.find? e = none) (hc : c ∈ e.children) :
    Descent t Operator.Any c ∧ c.levels < e.levels := by
  cases h with
  | simple he =>
    obtain ⟨hsimple, hlt⟩ := he.child hc
    exact ⟨.simple hsimple, by rwa [he.levels_eq, hsimple.levels_eq]⟩
  | @psi _ _ _ _ X hv hX =>
    rw [Rule.find?_psi] at hnone
    have hpos := X.size_pos
    rw [Expr.levels_psi]
    rcases List.mem_pair.1 hc with rfl | rfl
    · exact ⟨.simple .leaf, by rw [Expr.levels_array]; omega⟩
    · exact ⟨.simple (hX.simple hnone), by rw [(hX.simple hnone).levels_eq]; omega⟩
  | arith hl hr =>
    rw [Expr.levels_arith]
    rcases List.mem_pair.1 hc with rfl | rfl
    · exact ⟨hl, by omega⟩
    · exact ⟨hr, by omega⟩
  | fold _ hbody =>
    cases List.mem_singleton.1 hc
    exact ⟨hbody, by rw [Expr.levels_fold]; omega⟩

theorem children_demand (h : Descent t Operator.Any e) (hnone : Rule.find? e = none) :
    (e.children.map Expr.demand).sum ≤ e.demand := by
  cases h with
  | simple he =>
    have hzero : e.children.map Expr.demand = e.children.map fun _ => 0 :=
      List.map_congr_left fun c hc => (he.child hc).1.demand_eq
    simp [hzero]
  | psi _ hX =>
    rw [Rule.find?_psi] at hnone
    simp [Expr.binary, (hX.simple hnone).demand_eq]
  | arith => simp [Expr.binary, Expr.demand, Expr.demandAll]
  | fold => simp

end Descent

end

/-- What reduction keeps at each node. -/
structure Descends (limit : Nat) (c : Context) : Prop where
  descent : Descent c.table Operator.Any c.tree
  levels_le : c.tree.levels ≤ 2 * limit

/-- What becomes of a node: indices have come down as far as they can. -/
structure Lands (c c' : Context) : Prop where
  extends_table : Extends c.table c'.table
  simple : Simple c.tree → c'.tree = c.tree
  descent : Descent c'.table Operator.Stuck c'.tree

section
variable {bound limit n : Nat} {c : Context}

/-- A visit of a node of the fragment succeeds. -/
theorem Descends.step (h : Descends limit c) (hroom : c.table.Room bound (c.tree.demand + n)) :
    Attains bound (fun r => ∀ c', r = some c' → Descends limit c' ∧
      c'.table.Room bound (c'.tree.demand + n) ∧ c'.tree.steps < c.tree.steps ∧
      c'.tree.levels ≤ c.tree.levels ∧ ∀ c'', Lands c' c'' → Lands c c'') (Rule.rewrite c) := by
  by_cases hop : c.tree.op = .psi
  · obtain ⟨tree, table⟩ := c
    obtain ⟨s, a, v, index, X, rfl, hv, hX⟩ := h.descent.of_psi hop
    have hroom' : table.Room bound (3 * X.size - 3 + n + 3) := by
      have hpos := X.size_pos
      refine hroom.mono ?_
      rw [Expr.demand_psi]
      omega
    refine (hX.rewrite_attains hv hroom').imp fun r hr hafter c' hc' => ?_
    subst hc'
    obtain ⟨hx, hdescent, hdemand, hlevels, hsteps⟩ := (Rule.rewrite_psi hr).descent hv hX
    refine ⟨⟨hdescent, Nat.le_trans hlevels h.levels_le⟩, (hafter c' rfl).mono (by omega), hsteps,
      hlevels, fun c'' hland => ?_⟩
    exact ⟨hx.trans hland.extends_table, fun hs => absurd hop hs.op_ne_psi, hland.descent⟩
  · rw [Rule.rewrite_none.2 (Rule.find?_other hop)]
    exact .ok fun c' hc' => by cases hc'

theorem Traversal.Threads.extends_table {R : Context → Context → Prop}
    (hR : ∀ {a b}, R a b → Extends a.table b.table) {t t' : SymbolTable} {es es' : List Expr}
    (h : Threads R t es es' t') : Extends t t' := by
  induction h with
  | nil => exact .refl _
  | cons hland _ ih => exact (hR hland).trans ih

/-- A traversal that spares names spares their shapes and ranks. -/
theorem Simple.spared {R : Context → Context → Prop}
    (hR : ∀ {a b}, R a b → Simple a.tree → b.tree = a.tree) {t t' : SymbolTable} {e : Expr}
    {es : List Expr} (h : Simple e) (hthreads : Traversal.Threads R t e.children es t') :
    e.withChildren es = e := by
  cases h with
  | leaf =>
    cases hthreads
    rfl
  | query =>
    obtain ⟨e', rfl, hland⟩ := Traversal.Threads.one hthreads
    have hsame : e' = _ := hR hland .leaf
    rw [hsame]
    rfl

/-- A node that no rule is about has landed once its operands have. -/
theorem Descent.lands {t t' : SymbolTable} {e : Expr} {es : List Expr}
    (h : Descent t Operator.Any e) (hnone : Rule.find? e = none)
    (hthreads : Traversal.Threads Lands t e.children es t') :
    Descent t' Operator.Stuck (e.withChildren es) := by
  have hx := hthreads.extends_table Lands.extends_table
  cases h with
  | simple he => exact (he.spared Lands.simple hthreads).symm ▸ .simple he
  | psi hv hX =>
    rw [Rule.find?_psi] at hnone
    obtain ⟨v', X', t₁, rfl, hvector, hoperand⟩ := Traversal.Threads.two hthreads
    have hv' : v' = _ := hvector.simple .leaf
    have hX' : X' = _ := hoperand.simple (hX.simple hnone)
    rw [hv', hX']
    exact .psi (hx.get? hv) (hX.mono hx) hnone
  | arith =>
    obtain ⟨l', r', t₁, rfl, hl, hr⟩ := Traversal.Threads.two hthreads
    exact .arith (hl.descent.mono hr.extends_table) hr.descent
  | fold hk =>
    obtain ⟨body', rfl, hbody⟩ := Traversal.Threads.one hthreads
    exact .fold (hx.get? hk) hbody.descent

theorem advances : Traversal.Advances bound limit Rule.rewrite (Descends limit) Lands Expr.steps
    Expr.levels Expr.demand where
  levels_pos h := h.descent.levels_pos
  steps_le h := by
    have := h.descent.steps_le
    have := h.levels_le
    omega
  mono h hland := ⟨h.descent.mono hland.extends_table, h.levels_le⟩
  step h hroom := h.step hroom
  arity h _ := h.descent.arity
  child h hnone he := by
    obtain ⟨hchild, hlt⟩ := h.descent.child (Rule.rewrite_none.1 hnone) he
    exact ⟨⟨hchild, Nat.le_trans (Nat.le_of_lt hlt) h.levels_le⟩, hlt⟩
  children h hnone := h.descent.children_demand (Rule.rewrite_none.1 hnone)
  node h hnone hthreads := ⟨hthreads.extends_table Lands.extends_table,
    fun hs => hs.spared Lands.simple hthreads, h.descent.lands (Rule.rewrite_none.1 hnone) hthreads⟩

end

end PsiCalculus
