import PsiCalculus.Proofs.NormalForm.Seed
import PsiCalculus.Proofs.Tensor.Fragment

/-!
# Reduction keeps the meaning

A tree in the course of reduction is made of indexed parts: `Indexed D t₀ m₀ t e` says that `e` joins
and folds elements `v psi X`, where `X` is a part of the shaped tree that stands for a tensor and `v`
is as long as the tensor has axes. The value of such an element is the cell of the tensor at `v`.

* `Kept D t₀ m₀ t e t' value`: what a tree became is `e` over the table `t'`, which has indexed parts
  and the value it had.
* `Pushes.kept`: a rewrite of `v psi X` keeps the cell at `v`.
-/

namespace PsiCalculus

open SymbolTable

/-! ## Fresh names -/

section
variable {V : Type} {t t' : SymbolTable} {m : Memory V}

theorem Env.Total.literal {ρ : Env} (hρ : ρ.Total) {values : Shape}
    (hv : ∀ x ∈ values, t.Dimension x ∨ t.IndexElement x) :
    ρ.elements values = some (values.map ρ.value) :=
  Env.elements_eq fun x hx => (hv x hx).elim hρ.dimension hρ.index

theorem Memory.total_bind (hm : m.env.Total) (name : String) (i : Int) :
    (m.bind name i).env.Total := by
  intro other
  by_cases h : other = name
  · subst h
    simp
  · rw [Memory.env_number, Memory.bind_other m i h]
    exact hm other

/-- An element that the table knows does not change with a fresh name. -/
theorem Memory.value_bind {k : String} (hk : t.get? k = none) (i : Int) {x : Element}
    (hx : t.Dimension x ∨ t.IndexElement x) : (m.bind k i).env.value x = m.env.value x := by
  have hname : ∀ {name s}, t.get? name = some s →
      (m.bind k i).env.value (.named name) = m.env.value (.named name) := by
    intro name s hs
    have hne : name ≠ k := by
      rintro rfl
      simp [hk] at hs
    simp only [Env.value, Env.element_named, Memory.env_number, Memory.bind_other m i hne]
  obtain (⟨n, rfl⟩ | ⟨name, rfl, -, hs⟩) | ⟨name, bound, rfl, hs⟩ := hx
  · rfl
  · exact hname hs
  · exact hname hs

theorem Memory.map_value_bind {k : String} (hk : t.get? k = none) (i : Int) {s : Shape}
    (hs : ∀ x ∈ s, t.Dimension x ∨ t.IndexElement x) :
    s.map (m.bind k i).env.value = s.map m.env.value :=
  List.map_congr_left fun x hx => Memory.value_bind hk i (hs x hx)

theorem Memory.value_bind_self (k : String) (i : Int) :
    (m.bind k i).env.value (.named k) = i := by
  simp [Env.value]

theorem Memory.range_index {k : String} {bound : Element} (hk : t.get? k = some (.index bound))
    (hm : m.env.Total) (hb : t.Dimension bound) :
    m.range t k = some (steps 0 (m.env.value bound) 1) := by
  obtain ⟨n, hn⟩ := Option.isSome_iff_exists.1 (hm.dimension hb)
  simp [Memory.range, hk, Symbol.index, Env.value, hn]

end

/-! ## Indexed parts -/

section
variable {V : Type} {D : Domain V} {t₀ t t' : SymbolTable} {m₀ m : Memory V}

/-- A tree of elements of tensors, joined and folded. -/
inductive Indexed (D : Domain V) (t₀ : SymbolTable) (m₀ : Memory V) (t : SymbolTable) : Expr → Prop
  | psi {s a : Option Shape} {v : String} {values : Shape} {X : Expr} {T : Tensor V} :
      t.get? v = some (.literal values) → values.length = T.shape.length → Meant D t₀ m₀ X T →
      Indexed D t₀ m₀ t (.binary .psi s (.array v a) X)
  | leaf {name : String} {T : Tensor V} : Meant D t₀ m₀ (.array name (some [])) T →
      Indexed D t₀ m₀ t (.array name (some []))
  | arith {op : ArithOp} {s : Option Shape} {l r : Expr} : Indexed D t₀ m₀ t l →
      Indexed D t₀ m₀ t r → Indexed D t₀ m₀ t (.binary (.arith op) s l r)
  | reduce {op : ArithOp} {s : Option Shape} {k : String} {bound : Element} {body : Expr} :
      isGenerated k = true → t.get? k = some (.index bound) → Indexed D t₀ m₀ t body →
      Indexed D t₀ m₀ t (.node (.reduce op) s (.name k) [body])

namespace Indexed

theorem mono (h : Extends t t') {e : Expr} (he : Indexed D t₀ m₀ t e) : Indexed D t₀ m₀ t' e := by
  induction he with
  | psi hv hlen hX => exact .psi (h.get? hv) hlen hX
  | leaf hT => exact .leaf hT
  | arith _ _ ihl ihr => exact .arith ihl ihr
  | reduce hg hk _ ih => exact .reduce hg (h.get? hk) ih

theorem op_ne_condition {e : Expr} (he : Indexed D t₀ m₀ t e) : e.op ≠ .condition := by
  cases he <;> simp [Expr.binary, Expr.array]

theorem known (h : Extends t₀ t) {e : Expr} (he : Indexed D t₀ m₀ t e) : e.Known t := by
  induction he with
  | psi hv _ hX => exact (Expr.Known.array (mem_names_of_get? hv) _).binary (hX.known.mono h)
  | leaf hT => exact hT.known.mono h
  | arith _ _ ihl ihr => exact ihl.binary ihr
  | reduce _ hk _ ih => exact .named (mem_names_of_get? hk) ih

end Indexed

/-- The value of an indexed tensor is its cell. -/
theorem eval_psi (ht₀ : t₀.Declared) (hm₀ : m₀.env.Total) (hx : Extends t₀ t) (ht : t.Sound)
    {s a : Option Shape} {v : String} {values : Shape} {X : Expr} {T : Tensor V}
    (hv : t.get? v = some (.literal values)) (hX : Meant D t₀ m₀ X T) (hu : m₀.SameUser m)
    (hm : m.env.Total) :
    eval D t m (.binary .psi s (.array v a) X) = T.cell (values.map m.env.value) := by
  rw [Expr.binary, eval, hX.denote_eq ht₀ hm₀ hx hu, valueOf_literal (.refl t) hv]
  simp only [bind, Option.bind_some, hm.literal (ht.literal_element hv)]

theorem eval_leaf (ht₀ : t₀.Declared) (hm₀ : m₀.env.Total) (hx : Extends t₀ t) {name : String}
    {T : Tensor V} (hT : Meant D t₀ m₀ (.array name (some [])) T) (hu : m₀.SameUser m) :
    eval D t m (.array name (some [])) = T.cell [] := by
  have hd := hT.denote_eq ht₀ hm₀ hx hu
  rw [Expr.array, denote] at hd
  rw [Expr.array, eval, hd]
  rfl

/-! ## One rewrite -/

/-- What a rewrite to `e` over `t'` has to do for `value` to be kept. -/
structure Kept (D : Domain V) (t₀ : SymbolTable) (m₀ : Memory V) (t : SymbolTable) (e : Expr)
    (t' : SymbolTable) (value : Memory V → Option V) : Prop where
  grows : Grows t t'
  indexed : Indexed D t₀ m₀ t' e
  eval : ∀ m, m₀.SameUser m → m.env.Total → PsiCalculus.eval D t' m e = value m

/-- The tables and memories that a reduction starts from, and a table on the way. -/
structure Underway (t₀ : SymbolTable) (m₀ : Memory V) (t : SymbolTable) : Prop where
  declared : t₀.Declared
  total : m₀.env.Total
  extends_base : Extends t₀ t
  sound : t.Sound

theorem Underway.grow (h : Underway t₀ m₀ t) (hg : Grows t t') : Underway t₀ m₀ t' :=
  ⟨h.declared, h.total, h.extends_base.trans hg.entries, hg.sound h.sound⟩

/-- A dimension has the same value in all memories of the same user. -/
theorem Memory.SameUser.value (hu : m₀.SameUser m) {x : Element} (hx : t.Dimension x) :
    m.env.value x = m₀.env.value x := by
  rw [Env.value, Env.value, hu.dimension hx]

theorem Memory.SameUser.map_value (hu : m₀.SameUser m) {s : Shape} (hs : ∀ x ∈ s, t.Dimension x) :
    s.map m.env.value = s.map m₀.env.value :=
  List.map_congr_left fun x hx => hu.value (hs x hx)

/-- Indexing a tensor by a fresh vector gives the cell at the vector. -/
theorem NewVector.kept (h : Underway t₀ m₀ t) {elements : Shape} {u X : Expr} {T : Tensor V}
    {s : Option Shape} (hu : NewVector t elements u t')
    (he : ∀ x ∈ elements, t.Dimension x ∨ t.IndexElement x)
    (hlen : elements.length = T.shape.length) (hX : Meant D t₀ m₀ X T) :
    Kept D t₀ m₀ t (.binary .psi s u X) t' fun m => T.cell (elements.map m.env.value) := by
  obtain ⟨hg, name, rfl, hget⟩ := hu.grows he
  have h' := h.grow hg
  exact ⟨hg, .psi hget hlen hX,
    fun m hm htot => eval_psi h'.declared h'.total h'.extends_base h'.sound hget hX hm htot⟩

theorem Underway.dimension (h : Underway t₀ m₀ t) {s : Shape} (hs : ∀ x ∈ s, t₀.Dimension x) :
    ∀ x ∈ s, t.Dimension x ∨ t.IndexElement x :=
  fun x hx => .inl ((hs x hx).mono h.extends_base)

/-- An operand of a pointwise operator is read where it has to be. -/
theorem PushesOperand.kept (h : Underway t₀ m₀ t) {s a : Option Shape} {v : String} {values : Shape}
    {X e : Expr} {T : Tensor V} (hv : t.get? v = some (.literal values))
    (hlen : T.shape ≠ [] → values.length = T.shape.length) (hX : Meant D t₀ m₀ X T)
    (hp : PushesOperand t s (.array v a) X e t') :
    Kept D t₀ m₀ t e t' fun m => T.cell (T.reach (values.map m.env.value)) := by
  cases hp with
  | leaf hop hshape =>
    have hT := (hX.sized hshape).shape
    have hreach : ∀ x, T.reach x = [] := fun x => if_pos hT
    cases hX with
    | literal => cases hshape
    | user hs hT hsized =>
      cases hshape
      have hX := Meant.user (D := D) hs hT hsized
      refine ⟨.refl _, .leaf hX, fun m hm _ => ?_⟩
      rw [hreach]
      exact eval_leaf h.declared h.total h.extends_base hX hm
    | transpose | permute | psi | arith | outer | inner | reduce | shape | dim => cases hop
  | scalar hshape hu =>
    have hT : T.shape = [] := (hX.sized hshape).shape
    have hk := hu.kept (s := s) h (by simp) (by rw [hT]; rfl) hX
    refine ⟨hk.grows, hk.indexed, fun m hm htot => ?_⟩
    rw [hk.eval m hm htot, Tensor.reach, if_pos hT]
    rfl
  | array hshape hne =>
    have hT : T.shape ≠ [] := by
      rw [(hX.sized hshape).shape]
      simpa using hne
    refine ⟨.refl _, .psi hv (hlen hT) hX, fun m hm htot => ?_⟩
    rw [Tensor.reach, if_neg hT]
    exact eval_psi h.declared h.total h.extends_base h.sound hv hX hm htot

/-- Parts that are kept one after the other are kept together. -/
theorem Kept.arith {t₁ t₂ : SymbolTable} {op : ArithOp} {s : Option Shape} {l r : Expr}
    {value value' : Memory V → Option V} (h : Underway t₀ m₀ t) (hl : Kept D t₀ m₀ t l t₁ value)
    (hr : Kept D t₀ m₀ t₁ r t₂ value') :
    Kept D t₀ m₀ t (.binary (.arith op) s l r) t₂ fun m =>
      Tensor.joinCells (D.apply op) (value m) (value' m) := by
  refine ⟨hl.grows.trans hr.grows, .arith (hl.indexed.mono hr.grows.entries) hr.indexed,
    fun m hm htot => ?_⟩
  have hknown := hl.indexed.known (h.grow hl.grows).extends_base
  rw [Expr.binary, PsiCalculus.eval, eval_extends hr.grows.entries m l hknown, hl.eval m hm htot,
    hr.eval m hm htot]

/-- A kept body under a fresh bound index is a fold. -/
theorem Kept.reduce {t₁ t₂ : SymbolTable} {op : ArithOp} {s : Option Shape} {k : String}
    {bound : Element} {body : Expr} {value : Memory V → Option V}
    (hg : isGenerated k = true) (hk : Adds t k (.index bound) t₁) (hb : t₀.Dimension bound)
    (h : Underway t₀ m₀ t) (hbody : Kept D t₀ m₀ t₁ body t₂ value) :
    Kept D t₀ m₀ t (.node (.reduce op) s (.name k) [body]) t₂ fun m =>
      foldOver (D.apply op) (steps 0 (m₀.env.value bound) 1) fun i => value (m.bind k i) := by
  have hbound : t.Dimension bound := hb.mono h.extends_base
  have hgrows := hk.sound_grows hg fun _ => .index hg hbound
  have hget := hbody.grows.entries.get? hk.get?_self
  refine ⟨hgrows.trans hbody.grows, .reduce hg hget hbody.indexed, fun m hm htot => ?_⟩
  rw [PsiCalculus.eval, Memory.range_index hget htot
    ((hbound.mono hgrows.entries).mono hbody.grows.entries), hm.value hb]
  simp only [bind, Option.bind_some]
  exact foldOver_congr fun i _ => hbody.eval _ (hm.bind hg i) (Memory.total_bind htot k i)

theorem Underway.adds (h : Underway t₀ m₀ t) {k : String} {bound : Element}
    (hg : isGenerated k = true) (hk : Adds t k (.index bound) t') (hb : t₀.Dimension bound) :
    Underway t₀ m₀ t' :=
  h.grow (hk.sound_grows hg fun _ => .index hg (hb.mono h.extends_base))

theorem Kept.congr {e : Expr} {value value' : Memory V → Option V}
    (h : Kept D t₀ m₀ t e t' value)
    (hv : ∀ m, m₀.SameUser m → m.env.Total → value m = value' m) : Kept D t₀ m₀ t e t' value' :=
  ⟨h.grows, h.indexed, fun m hm htot => (h.eval m hm htot).trans (hv m hm htot)⟩

/-! ## Rule by rule -/

section
variable {s : Option Shape} {index : Shape} {X u w l r : Expr} {t₁ t₂ t₃ : SymbolTable}

theorem permute_kept (h : Underway t₀ m₀ t) (hi : ∀ x ∈ index, t.Dimension x ∨ t.IndexElement x)
    {places arranged : Shape} {ps : List Int} {S T : Tensor V} (hlen : index.length = T.shape.length)
    (hps : Shape.ints? places = some ps) (hX : Meant D t₀ m₀ X S) (hT : S.permute ps = some T)
    (harranged : Shape.arrange? places index = some arranged) (hu : NewVector t arranged u t') :
    Kept D t₀ m₀ t (.binary .psi s u X) t' fun m => T.cell (index.map m.env.value) := by
  obtain ⟨hperm, hTs, hcell⟩ := Tensor.permute_eq hT
  have hgathers := (Shape.arrange?_eq_some_iff hps).1 harranged
  have hrank : arranged.length = S.shape.length := by
    rw [hgathers.length_eq, hperm.length_eq, Tensor.length_places]
  have hTlen : T.shape.length = S.shape.length := by rw [hTs, Tensor.length_permutedLengths]
  refine (hu.kept h (fun x hx => hi x (hgathers.subset hx)) hrank hX).congr fun m _ _ => ?_
  rw [hcell _ (by rw [List.length_map, hlen, hTlen]),
    Tensor.unpermute_eq_some_iff.2 (hgathers.map m.env.value)]
  rfl

theorem psi_kept (h : Underway t₀ m₀ t) (hi : ∀ x ∈ index, t.Dimension x ∨ t.IndexElement x)
    {first : Shape} {T : Tensor V} (hfirst : ∀ x ∈ first, t₀.Dimension x)
    (hle : first.length ≤ T.shape.length)
    (hlen : index.length = (T.select (first.map m₀.env.value)).shape.length)
    (hX : Meant D t₀ m₀ X T) (hu : NewVector t (first ++ index) u t') :
    Kept D t₀ m₀ t (.binary .psi s u X) t' fun m =>
      (T.select (first.map m₀.env.value)).cell (index.map m.env.value) := by
  have hrank : (first ++ index).length = T.shape.length := by
    simp only [Tensor.select, List.length_drop, List.length_map] at hlen
    rw [List.length_append]
    omega
  refine (hu.kept h ?_ hrank hX).congr fun m hm _ => ?_
  · intro x hx
    exact (List.mem_append.1 hx).elim (h.dimension hfirst x) (hi x)
  · rw [List.map_append, hm.map_value hfirst]
    rfl

theorem outer_kept (h : Underway t₀ m₀ t) (hi : ∀ x ∈ index, t.Dimension x ∨ t.IndexElement x)
    {op : ArithOp} {A B : Tensor V} (hlen : index.length = A.shape.length + B.shape.length)
    (hA : Meant D t₀ m₀ l A) (hB : Meant D t₀ m₀ r B)
    (hu : NewVector t (index.take A.shape.length) u t₁)
    (hw : NewVector t₁ (index.drop A.shape.length) w t₂) :
    Kept D t₀ m₀ t (.binary (.arith op) s (.binary .psi s u l) (.binary .psi s w r)) t₂ fun m =>
      (A.outer (D.apply op) B).cell (index.map m.env.value) := by
  have hu' := hu.kept (s := s) h (fun x hx => hi x (List.mem_of_mem_take hx))
    (by rw [List.length_take]; omega) hA
  have hw' := hw.kept (s := s) (h.grow hu'.grows)
    (fun x hx => elements_mono hu'.grows.entries hi x (List.mem_of_mem_drop hx))
    (by rw [List.length_drop]; omega) hB
  refine (hu'.arith h hw').congr fun m _ _ => ?_
  rw [List.map_take, List.map_drop]
  rfl

theorem inner_kept (h : Underway t₀ m₀ t) (hi : ∀ x ∈ index, t.Dimension x ∨ t.IndexElement x)
    {fold join : ArithOp} {A B T : Tensor V} {shape : Shape} {bound : Element} {k : String}
    (hlen : index.length = T.shape.length) (hA : Meant D t₀ m₀ l A) (hB : Meant D t₀ m₀ r B)
    (hT : A.inner (D.apply fold) (D.apply join) B = some T)
    (hshape : l.shape = some (shape ++ [bound])) (hg : isGenerated k = true)
    (hk : Adds t k (.index bound) t₁)
    (hu : NewVector t₁ (index.take shape.length ++ [.named k]) u t₂)
    (hw : NewVector t₂ (.named k :: index.drop shape.length) w t₃) :
    Kept D t₀ m₀ t (.node (.reduce fold) s (.name k)
      [.binary (.arith join) s (.binary .psi s u l) (.binary .psi s w r)]) t₃ fun m =>
        T.cell (index.map m.env.value) := by
  obtain ⟨a, n, b, hAs, hBs, hTs, hcell⟩ := Tensor.inner_eq hT
  have hsized := hA.sized hshape
  have hbound := hsized.dimension bound (by simp)
  have hsplit := hsized.shape
  rw [hAs, List.map_append] at hsplit
  obtain ⟨ha, hn⟩ := List.append_inj' hsplit rfl
  cases hn
  have halen : a.length = shape.length := by rw [ha, List.length_map]
  rw [hTs, List.length_append, halen] at hlen
  have h₁ := h.adds hg hk hbound
  obtain ⟨hfront, hback⟩ := hk.elements_cut hi shape.length
  have hu' := hu.kept (s := s) (T := A) h₁ hfront
    (by rw [List.length_append, List.length_take, hAs, List.length_append, halen]; simp; omega) hA
  have hw' := hw.kept (s := s) (T := B) (h₁.grow hu'.grows) (elements_mono hu'.grows.entries hback)
    (by
      rw [List.length_cons, List.length_drop, hBs, List.length_cons]
      omega) hB
  refine ((hu'.arith h₁ hw').reduce hg hk hbound h).congr fun m _ _ => ?_
  rw [hcell, halen]
  refine foldOver_congr fun i _ => ?_
  simp only [List.map_append, List.map_cons, List.map_nil, Memory.value_bind_self, List.map_take,
    List.map_drop, Memory.map_value_bind hk.fresh i hi]

theorem reduce_kept (h : Underway t₀ m₀ t) (hi : ∀ x ∈ index, t.Dimension x ∨ t.IndexElement x)
    {op : ArithOp} {S T : Tensor V} {shape : Shape} {bound : Element} {k : String}
    (hlen : index.length = T.shape.length) (hX : Meant D t₀ m₀ X S)
    (hT : S.reduce (D.apply op) = some T) (hshape : X.shape = some (bound :: shape))
    (hg : isGenerated k = true) (hk : Adds t k (.index bound) t₁)
    (hu : NewVector t₁ (.named k :: index) u t₂) :
    Kept D t₀ m₀ t (.node (.reduce op) s (.name k) [.binary .psi s u X]) t₂ fun m =>
      T.cell (index.map m.env.value) := by
  obtain ⟨n, b, hSs, hTs, hcell⟩ := Tensor.reduce_eq hT
  have hsized := hX.sized hshape
  have hbound := hsized.dimension bound (.head _)
  have hsplit := hsized.shape
  rw [hSs, List.map_cons] at hsplit
  cases hsplit
  have hu' := hu.kept (s := s) (T := S) (h.adds hg hk hbound) (hk.elements_cons hi)
    (by rw [List.length_cons, hSs, List.length_cons, hlen, hTs]) hX
  refine (hu'.reduce hg hk hbound h).congr fun m _ _ => ?_
  rw [hcell]
  refine foldOver_congr fun i _ => ?_
  rw [List.map_cons, Memory.value_bind_self, Memory.map_value_bind hk.fresh i hi]

end

/-- **A rewrite keeps the value**: what `v psi X` becomes has the value of the cell at `v`. -/
theorem Pushes.kept (h : Underway t₀ m₀ t) {s a : Option Shape} {v : String} {values : Shape}
    {X e : Expr} {T : Tensor V} (hv : t.get? v = some (.literal values))
    (hlen : values.length = T.shape.length) (hX : Meant D t₀ m₀ X T)
    (hp : Pushes t s (.array v a) X e t') :
    Kept D t₀ m₀ t e t' fun m => T.cell (values.map m.env.value) := by
  have hvalue : ∀ {index}, t.valueOf (.array v a) = some index → values = index :=
    fun hindex => (eq_of_valueOf_literal (.refl t) hv hindex).symm
  have helem := h.sound.literal_element hv
  cases hX with
  | literal | user => cases hp
  | shape | dim => cases hp
  | @transpose X T _ hX _ =>
    cases hp with
    | transpose hindex _ _ hu =>
      obtain rfl := hvalue hindex
      have hrank : values.reverse.length = T.shape.length := by simpa [Tensor.transpose] using hlen
      refine (hu.kept h (fun x hx => helem x (List.mem_reverse.1 hx)) hrank hX).congr fun m _ _ => ?_
      rw [List.map_reverse]
      rfl
  | permute hp₀ hps hX hU _ =>
    cases hp with
    | permute hindex hplaces harranged hu =>
      obtain rfl := hvalue hindex
      cases eq_of_valueOf_literal h.extends_base hp₀ hplaces
      exact permute_kept h helem hlen hps hX hU harranged hu
    | elementwise hop => cases hop
  | psi hw hle hX _ =>
    cases hp with
    | psi hfirst hsecond hu =>
      obtain rfl := hvalue hsecond
      cases eq_of_valueOf_literal h.extends_base hw hfirst
      exact psi_kept h helem (Meant.literal_dimension h.declared hw) hle hlen hX hu
    | elementwise hop => cases hop
  | arith hA hB hU _ =>
    cases hp with
    | elementwise _ hl hr =>
      obtain ⟨hrankA, hrankB⟩ := Tensor.pointwise_rank hU
      have hl' := hl.kept h hv (fun hne => hlen.trans (hrankA hne)) hA
      have hr' := hr.kept (h.grow hl'.grows) (hl'.grows.entries.get? hv)
        (fun hne => hlen.trans (hrankB hne)) hB
      refine (hl'.arith h hr').congr fun m _ _ => ?_
      rw [Tensor.pointwise_cell hU (by rw [List.length_map, hlen])]
  | outer hA hB _ =>
    cases hp with
    | outer hindex hshape _ hu hw =>
      obtain rfl := hvalue hindex
      rw [← hA.rank_eq hshape] at hu hw
      exact outer_kept h helem (by simpa [Tensor.outer] using hlen) hA hB hu hw
    | elementwise hop => cases hop
  | inner hA hB hU _ =>
    cases hp with
    | inner hindex hshape _ hg hk hu hw =>
      obtain rfl := hvalue hindex
      exact inner_kept h helem hlen hA hB hU hshape hg hk hu hw
    | elementwise hop => cases hop
  | reduce hX hU _ =>
    cases hp with
    | reduce hindex hshape hg hk hu =>
      obtain rfl := hvalue hindex
      exact reduce_kept h helem hlen hX hU hshape hg hk hu

end

end PsiCalculus
