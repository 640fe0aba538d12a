import PsiCalculus.Proofs.NormalForm.Indices

/-!
# Reduction keeps the seeded indices free

* `Pushed t₀ t used e t'`: what a rewrite of an indexed part has to do, `used` being the names that
  its index vector mentions. `Pushes.pushed`: every rule does.
* `preserves_indices`: so does the whole traversal, and each index stays in its scope.
* `Context.reduce_ok`: what is left after a reduction (`Context.Reduced`), with the seeds as its free
  indices, in their order.
-/

namespace PsiCalculus

open SymbolTable

/-! ## Names in vectors -/

theorem Shape.names_append (a b : Shape) : names (a ++ b) = names a ++ names b :=
  List.filterMap_append

theorem Shape.names_cons_named (name : String) (a : Shape) :
    names (.named name :: a) = name :: names a := rfl

theorem Shape.mem_names_of_subset {a b : Shape} (h : a ⊆ b) {name : String} (hn : name ∈ names a) :
    name ∈ names b := by
  obtain ⟨x, hx, hxn⟩ := List.mem_filterMap.1 hn
  exact List.mem_filterMap.2 ⟨x, h hx, hxn⟩

/-! ## One rewrite -/

/-- A rewrite to `e` over `t'` that keeps the indices among the used names. -/
structure Pushed (t₀ t : SymbolTable) (used : List String) (e : Expr) (t' : SymbolTable) : Prop where
  grows : Grows t t'
  reducing : Reducing t₀ t' e
  scopes : Scopes t used [] t' (e.uses t') e.boundIndices
  in_scope : ∀ {scope}, (∀ name ∈ used, t.isIndex name = true → name ∈ scope) → e.Scoped t' scope

section
variable {t₀ t t₁ t₂ t' : SymbolTable} {used used' : List String} {e X u v : Expr}

theorem NewVector.isIndex {elements : Shape} (h : NewVector t elements u t') {name : String}
    (hi : t'.isIndex name = true) : t.isIndex name = true := by
  obtain ⟨_, -, hadds, -⟩ := h.exists_name
  exact hadds.isIndex_array rfl hi

theorem uses_psi (ho : Over t₀ t) (hX : Part t₀ X) {s : Option Shape} {name : String}
    (hi : t.isIndex name = true) :
    name ∈ (Expr.binary .psi s v X).uses t ↔ name ∈ v.uses t := by
  have hnot := hX.not_index ho.declared ho.extends_base hi
  simp [Expr.uses_binary, hnot]

namespace Pushed

theorem congr (h : Pushed t₀ t used e t')
    (hu : ∀ name, t.isIndex name = true → (name ∈ used ↔ name ∈ used')) :
    Pushed t₀ t used' e t' :=
  ⟨h.grows, h.reducing, ⟨fun name hi => (h.scopes.used name hi).trans (hu name hi), h.scopes.bound,
    h.scopes.fresh⟩, fun hscope => h.in_scope fun name hn hi => hscope name ((hu name hi).1 hn) hi⟩

/-- A part that is not indexed any more. -/
theorem part (ho : Over t₀ t) (hX : Part t₀ X) : Pushed t₀ t [] X t := by
  have hnot : ∀ name, t.isIndex name = true → name ∉ X.uses t :=
    fun name hi => hX.not_index ho.declared ho.extends_base hi
  refine ⟨.refl _, .part hX, ?_, fun _ => (Expr.scoped_iff hX.bound).2 fun name hn hi =>
    absurd hn (hnot name hi)⟩
  rw [hX.bound]
  refine .same (fun name hi => ?_) fun _ hi => hi
  simp [hnot name hi]

/-- A part under an index vector that was there. -/
theorem psi (ho : Over t₀ t) {s : Option Shape} {shape : Shape}
    (hv : IndexVector t₀ t shape.length v) (hs : X.shape = some shape) (hX : Part t₀ X) :
    Pushed t₀ t (v.uses t) (.binary .psi s v X) t := by
  have hbound : (Expr.binary .psi s v X).boundIndices = [] := by
    rw [Expr.bound_binary, hv.bound, hX.bound, List.append_nil]
  refine ⟨.refl _, .psi hv hs hX, ?_, fun hscope => (Expr.scoped_iff hbound).2 fun name hn hi =>
    hscope name ((uses_psi ho hX hi).1 hn) hi⟩
  rw [hbound]
  exact .same (fun name hi => uses_psi ho hX hi) fun _ hi => hi

/-- A part under a new index vector. -/
theorem vector (ho : Over t₀ t) {elements shape : Shape} {s : Option Shape}
    (hu : NewVector t elements u t') (he : ∀ x ∈ elements, t.Dimension x ∨ t.IndexElement x)
    (hs : X.shape = some shape) (hlen : elements.length ≤ shape.length) (hX : Part t₀ X) :
    Pushed t₀ t (Shape.names elements) (.binary .psi s u X) t' := by
  obtain ⟨hg, name, rfl, hget⟩ := hu.grows he
  have hbound : ∀ {a}, (Expr.binary .psi s (.array name a) X).boundIndices = [] := by
    intro a
    rw [Expr.bound_binary, Expr.bound_array, hX.bound, List.append_nil]
  have huses : ∀ {a}, ∀ index, t'.isIndex index = true →
      (index ∈ (Expr.binary .psi s (.array name a) X).uses t' ↔ index ∈ Shape.names elements) := by
    intro a index hi
    rw [uses_psi (ho.grow hg) hX hi, Expr.uses_array, hget]
    rfl
  refine ⟨hg, .psi (.literal hget hlen) hs hX, ?_, fun hscope => (Expr.scoped_iff hbound).2
    fun index hn hi => hscope index ((huses index hi).1 hn) (hu.isIndex hi)⟩
  rw [hbound]
  exact .same (fun index hi => huses index (hg.entries.isIndex hi)) fun _ hi => hu.isIndex hi

/-- Two rewrites, one after the other. -/
theorem join (ho : Over t₀ t) {op : Operator} {s : Option Shape} {l r : Expr}
    (hop : op = .assign ∨ op.isElementwise = true) (hl : Pushed t₀ t used l t₁)
    (hr : Pushed t₀ t₁ used' r t₂) (hu : ∀ name ∈ used', name ∈ t.names) :
    Pushed t₀ t (used ++ used') (.binary op s l r) t₂ := by
  have ho₁ := ho.grow hl.grows
  have hknown := hl.reducing.known ho₁.extends_base
  refine ⟨hl.grows.trans hr.grows, .join hop (hl.reducing.mono hr.grows.entries) hr.reducing, ?_,
    fun {scope} hscope => ?_⟩
  · rw [Expr.uses_binary, Expr.bound_binary, Expr.uses_extends hr.grows.entries hknown]
    exact hl.scopes.append hl.grows.entries hr.grows.entries hr.scopes
      (Expr.uses_names ho₁.sound hknown) hu
  · rw [List.forall_mem_append] at hscope
    have hleft : l.Scoped t₂ scope :=
      (Expr.Scoped.extends_iff hr.grows.entries ho₁.sound hknown).2 (hl.in_scope hscope.1)
    have hright : r.Scoped t₂ scope := hr.in_scope fun name hn hi =>
      hscope.2 name hn (by rwa [hl.grows.entries.isIndex_eq (hu name hn)] at hi)
    rw [Expr.scoped_binary]
    exact ⟨hleft, hright⟩

/-- A part under a new vector of the elements of the index, in any order. -/
theorem rearranged (ho : Over t₀ t) {n : Nat} {s : Option Shape} {index elements shape : Shape}
    (hv : IndexVector t₀ t n v) (hindex : t.valueOf v = some index) (hperm : elements.Perm index)
    (hu : NewVector t elements u t') (hs : X.shape = some shape)
    (hlen : elements.length ≤ shape.length) (hX : Part t₀ X) :
    Pushed t₀ t (v.uses t) (.binary .psi s u X) t' := by
  obtain ⟨-, huse, helem⟩ := hv.value ho hindex
  refine (vector ho hu (fun x hx => helem x (hperm.subset hx)) hs hlen hX).congr fun name _ => ?_
  rw [huse]
  exact ⟨Shape.mem_names_of_subset hperm.subset, Shape.mem_names_of_subset hperm.symm.subset⟩

/-- Two parts that are joined, each under a new vector. -/
theorem vectors (ho : Over t₀ t) {op : Operator} {s : Option Shape} {front back a b : Shape}
    {l r : Expr} (hop : op.isElementwise = true)
    (hfront : ∀ x ∈ front, t.Dimension x ∨ t.IndexElement x)
    (hback : ∀ x ∈ back, t.Dimension x ∨ t.IndexElement x) (hu : NewVector t front u t₁)
    (hw : NewVector t₁ back v t₂) (ha : l.shape = some a) (hb : r.shape = some b)
    (hla : front.length ≤ a.length) (hlb : back.length ≤ b.length) (hl : Part t₀ l)
    (hr : Part t₀ r) : Pushed t₀ t (Shape.names (front ++ back))
      (.binary op s (.binary .psi s u l) (.binary .psi s v r)) t₂ := by
  have hleft := vector (s := s) ho hu hfront ha hla hl
  have hright := vector (s := s) (ho.grow hleft.grows) hw
    (elements_mono hleft.grows.entries hback) hb hlb hr
  rw [Shape.names_append]
  exact .join ho (.inr hop) hleft hright (names_of_elements hback)

/-- A rewrite under a new bound index. -/
theorem fold {op : ArithOp} {s : Option Shape} {k : String} {bound : Element} {body : Expr}
    (hg : isGenerated k = true) (hk : Adds t k (.index bound) t₁) (hb : t.Dimension bound)
    (hbody : Pushed t₀ t₁ used body t₂) (hu : ∀ name ≠ k, name ∈ used ↔ name ∈ used') :
    Pushed t₀ t used' (.node (.reduce op) s (.name k) [body]) t₂ := by
  have hx₁ := hk.grows
  have hne : ∀ {name}, t.isIndex name = true → name ≠ k := by
    rintro name hi rfl
    exact get?_eq_none_iff.1 hk.fresh (mem_names_of_isIndex hi)
  refine ⟨(hk.sound_grows hg fun _ => .index hg hb).trans hbody.grows,
    .fold (hbody.grows.entries.get? hk.get?_self) hbody.reducing, ?_, fun {scope} hscope => ?_⟩
  · have huses : (Expr.node (.reduce op) s (.name k) [body]).uses t₂ = body.uses t₂ := by
      simp [Expr.uses, Expr.usesAll, Expr.ownUses]
    have hbound : (Expr.node (.reduce op) s (.name k) [body]).boundIndices =
        k :: body.boundIndices := by
      simp [Expr.boundIndices_node, Expr.boundIndicesAll, Expr.ownBound]
    rw [huses, hbound]
    refine ⟨fun name hi => ?_, fun name hi => ?_, fun name hi hn hused => ?_⟩
    · exact (hbody.scopes.used name (hx₁.isIndex hi)).trans (hu name (hne hi))
    · rw [List.mem_cons, hbody.scopes.bound name (hx₁.isIndex hi)]
      exact or_iff_right (hne hi)
    · cases hi₁ : t₁.isIndex name with
      | false => exact .tail _ (hbody.scopes.fresh name hi hi₁ hused)
      | true =>
        -- the only index that was added is the bound one
        by_cases heq : name = k
        · exact heq ▸ .head _
        · rw [hk.isIndex_other heq, hn] at hi₁
          cases hi₁
  · have hindex : t₂.isIndex k = true :=
      SymbolTable.isIndex_iff.2 ⟨_, hbody.grows.entries.get? hk.get?_self, rfl⟩
    refine Expr.scoped_fold.2 ⟨hindex, hbody.in_scope fun name hn hi => ?_⟩
    by_cases heq : name = k
    · exact heq ▸ .head _
    · rw [hk.isIndex_other heq] at hi
      exact .tail _ (hscope name ((hu name heq).1 hn) hi)

end Pushed

theorem PushesOperand.pushed (ho : Over t₀ t) {s : Option Shape} {shape : Shape}
    (hv : shape ≠ [] → IndexVector t₀ t shape.length v) (hs : X.shape = some shape)
    (hX : Part t₀ X) (h : PushesOperand t s v X e t') :
    Pushed t₀ t (if shape = [] then [] else v.uses t) e t' := by
  cases h with
  | leaf _ hnil =>
    cases hs.symm.trans hnil
    exact .part ho hX
  | scalar hnil hu =>
    cases hs.symm.trans hnil
    exact .vector ho hu (by simp) hnil (by simp) hX
  | array hshape hne =>
    cases hs.symm.trans hshape
    rw [if_neg hne]
    exact .psi ho (hv hne) hshape hX

theorem Part.elements (ho : Over t₀ t) (hX : Part t₀ X) {shape : Shape} (hs : X.shape = some shape) :
    ∀ x ∈ shape, t.Dimension x :=
  fun x hx => (hX.dimension ho.declared hs x hx).mono ho.extends_base

theorem Over.adds (ho : Over t₀ t) {k : String} {bound : Element} (hg : isGenerated k = true)
    (hk : Adds t k (.index bound) t₁) (hb : t.Dimension bound) : Over t₀ t₁ :=
  ho.grow (hk.sound_grows hg fun _ => .index hg hb)

/-! ## Rule by rule -/

section
variable {s : Option Shape} {shape a b : Shape} {values : Option Shape} {checks : List Check}
  {l r w : Expr}

/-- What an indexed part is indexed by next comes after the literal that was there. -/
theorem psi_pushed (ho : Over t₀ t) (hv : IndexVector t₀ t shape.length v) {first second : Shape}
    (hw : Part t₀ w) (hr : Part t₀ r) (ha : w.shape = some a) (hb : r.shape = some b)
    (hlaw : BinaryLaw values .psi a b shape checks) (hfirst : t.valueOf w = some first)
    (hsecond : t.valueOf v = some second) (hu : NewVector t (first ++ second) u t') :
    Pushed t₀ t (v.uses t) (.binary .psi s u r) t' := by
  cases hlaw with
  | psi hle =>
    obtain ⟨hlen, huse, helem⟩ := hv.value ho hsecond
    rw [valueOf_extends ho.extends_base hw.known] at hfirst
    obtain ⟨name, rfl, hname⟩ := hw.literal_of_valueOf ho.declared hfirst
    have hget := ho.extends_base.get? hname
    cases ha
    rw [Shape.indexRank_natCast] at hle hlen
    rw [List.length_drop] at hlen
    refine (Pushed.vector ho hu (List.forall_mem_append.2 ⟨ho.sound.literal_element hget, helem⟩) hb
      (by rw [List.length_append]; omega) hr).congr fun name hi => ?_
    -- the literal is a part of the shaped tree, which mentions no index
    have hnot := hw.not_index ho.declared ho.extends_base hi
    rw [Expr.uses_array, hget, Option.bind_some] at hnot
    rw [Shape.names_append, List.mem_append, huse]
    exact or_iff_right hnot

/-- A permutation loses no element of the index. -/
theorem permute_pushed (ho : Over t₀ t) (hv : IndexVector t₀ t shape.length v)
    {index places arranged : Shape} (hw : Part t₀ w) (hr : Part t₀ r) (hb : r.shape = some b)
    (hlaw : BinaryLaw (t₀.valueOf w) .permute a b shape checks) (hindex : t.valueOf v = some index)
    (hplaces : t.valueOf w = some places) (harranged : Shape.arrange? places index = some arranged)
    (hu : NewVector t arranged u t') : Pushed t₀ t (v.uses t) (.binary .psi s u r) t' := by
  cases hlaw with
  | permute hp hints hlen hplaced =>
    rw [valueOf_extends ho.extends_base hw.known, hp] at hplaces
    cases hplaces
    obtain ⟨hle, -⟩ := hv.value ho hindex
    obtain ⟨htargets, hplen, -⟩ := Shape.gathers_of_place? hlen hplaced
    have hgathers := (Shape.arrange?_eq_some_iff hints).1 harranged
    have hrank : arranged.length ≤ b.length := Nat.le_of_eq (hgathers.length_eq.trans hlen)
    exact .rearranged ho hv hindex (hgathers.perm htargets (hplen ▸ hle)) hu hb hrank hr

/-- An operand that is a scalar has no use for the index, but then the other one has. -/
theorem elementwise_pushed (ho : Over t₀ t) (hv : IndexVector t₀ t shape.length v) {op : Operator}
    {l' r' : Expr} (hl : Part t₀ l) (hr : Part t₀ r) (ha : l.shape = some a) (hb : r.shape = some b)
    (hlaw : BinaryLaw values op a b shape checks) (hop : op.isElementwise = true)
    (hl' : PushesOperand t s v l l' t₁) (hr' : PushesOperand t₁ s v r r' t₂) :
    Pushed t₀ t (v.uses t) (.binary op s l' r') t₂ := by
  obtain ⟨hla, hrb, hnil⟩ := hlaw.elementwise hop
  have hleft := hl'.pushed ho (fun hne => hla hne ▸ hv) ha hl
  have hright := hr'.pushed (ho.grow hleft.grows)
    (fun hne => (hrb hne ▸ hv).mono hleft.grows.entries) hb hr
  rw [Expr.uses_extends hleft.grows.entries (hv.known ho.extends_base)] at hright
  refine (Pushed.join ho (.inr hop) hleft hright fun name hn => ?_).congr fun name hi => ?_
  · split at hn
    · cases hn
    · exact Expr.uses_names ho.sound (hv.known ho.extends_base) name hn
  · by_cases hab : a = [] ∧ b = []
    · obtain rfl := hnil hab.1 hab.2
      simp [hab.1, hab.2, hv.not_index ho hi]
    · rw [List.mem_append]
      split <;> split <;> simp_all

theorem outer_pushed (ho : Over t₀ t) (hv : IndexVector t₀ t shape.length v) {op : ArithOp}
    {index : Shape} (hl : Part t₀ l) (hr : Part t₀ r) (ha : l.shape = some a) (hb : r.shape = some b)
    (hlaw : BinaryLaw values (.outer op) a b shape checks) (hindex : t.valueOf v = some index)
    (hu : NewVector t (index.take a.length) u t₁) (hw : NewVector t₁ (index.drop a.length) w t₂) :
    Pushed t₀ t (v.uses t)
      (.binary (.arith op) s (.binary .psi s u l) (.binary .psi s w r)) t₂ := by
  cases hlaw with
  | outer =>
    obtain ⟨hlen, huse, helem⟩ := hv.value ho hindex
    rw [List.length_append] at hlen
    have hpushed : Pushed t₀ t (Shape.names (index.take a.length ++ index.drop a.length))
        (.binary (.arith op) s (.binary .psi s u l) (.binary .psi s w r)) t₂ :=
      .vectors ho rfl (fun x hx => helem x (List.mem_of_mem_take hx))
        (fun x hx => helem x (List.mem_of_mem_drop hx)) hu hw ha hb
        (by rw [List.length_take]; omega) (by rw [List.length_drop]; omega) hl hr
    rwa [List.take_append_drop, ← huse] at hpushed

theorem inner_pushed (ho : Over t₀ t) (hv : IndexVector t₀ t shape.length v) {fold join : ArithOp}
    {index : Shape} {bound : Element} {k : String} {t₃ : SymbolTable} (hl : Part t₀ l)
    (hr : Part t₀ r) (ha : l.shape = some (a ++ [bound])) (hb : r.shape = some b)
    (hlaw : BinaryLaw values (.inner fold join) (a ++ [bound]) b shape checks)
    (hindex : t.valueOf v = some index) (hle : a.length ≤ index.length) (hg : isGenerated k = true)
    (hk : Adds t k (.index bound) t₁) (hu : NewVector t₁ (index.take a.length ++ [.named k]) u t₂)
    (hw : NewVector t₂ (.named k :: index.drop a.length) w t₃) :
    Pushed t₀ t (v.uses t) (.node (.reduce fold) s (.name k)
      [.binary (.arith join) s (.binary .psi s u l) (.binary .psi s w r)]) t₃ := by
  have hrank := hlaw.inner_rank
  obtain ⟨hlen, huse, helem⟩ := hv.value ho hindex
  have hbound := hl.elements ho ha bound (by simp)
  obtain ⟨hfront, hback⟩ := hk.elements_cut helem a.length
  refine .fold hg hk hbound (.vectors (ho.adds hg hk hbound) rfl hfront hback hu hw ha hb ?_ ?_ hl hr)
    fun name hne => ?_
  · simp only [List.length_append, List.length_take, List.length_singleton]
    omega
  · simp only [List.length_cons, List.length_drop]
    omega
  · have hcut := Shape.names_append (index.take a.length) (index.drop a.length)
    rw [List.take_append_drop] at hcut
    rw [huse, hcut, Shape.names_append, Shape.names_append, Shape.names_cons_named,
      Shape.names_cons_named]
    simp [hne, Shape.names]

theorem reduce_pushed (ho : Over t₀ t) (hv : IndexVector t₀ t shape.length v) {op : ArithOp}
    {index : Shape} {bound : Element} {k : String} (hX : Part t₀ X)
    (hs : X.shape = some (bound :: shape)) (hindex : t.valueOf v = some index)
    (hg : isGenerated k = true) (hk : Adds t k (.index bound) t₁)
    (hu : NewVector t₁ (.named k :: index) u t₂) :
    Pushed t₀ t (v.uses t) (.node (.reduce op) s (.name k) [.binary .psi s u X]) t₂ := by
  obtain ⟨hlen, huse, helem⟩ := hv.value ho hindex
  have hbound := hX.elements ho hs bound (.head _)
  refine .fold hg hk hbound (.vector (ho.adds hg hk hbound) hu (hk.elements_cons helem) hs
    (Nat.succ_le_succ hlen) hX) fun name hne => ?_
  rw [huse, Shape.names_cons_named, List.mem_cons]
  exact or_iff_right hne

end

/-- **A rewrite keeps the indices**: no rule loses an index of the vector that it pushes. -/
theorem Pushes.pushed (ho : Over t₀ t) {s : Option Shape} {shape : Shape}
    (hv : IndexVector t₀ t shape.length v) (hs : X.shape = some shape) (hX : Part t₀ X)
    (h : Pushes t s v X e t') : Pushed t₀ t (v.uses t) e t' := by
  cases h with
  | assign =>
    cases hX with
    | binary hl hr ha hb hlaw =>
      cases hlaw with
      | assign hlen =>
        cases hs
        rw [List.length_zipWith, hlen, Nat.min_self] at hv
        refine (Pushed.join ho (.inl rfl) (.psi ho (hlen ▸ hv) ha hl) (.psi ho hv hb hr)
          (Expr.uses_names ho.sound (hv.known ho.extends_base))).congr fun name _ => ?_
        simp
  | psi hfirst hsecond hu =>
    cases hX with
    | binary hl hr ha hb hlaw =>
      cases hs
      exact psi_pushed ho hv hl hr ha hb hlaw hfirst hsecond hu
  | transpose hindex ha _ hu =>
    cases hX with
    | unary hX ha' hlaw =>
      cases hlaw
      cases hs
      cases ha.symm.trans ha'
      obtain ⟨hlen, -⟩ := hv.value ho hindex
      exact .rearranged ho hv hindex (List.reverse_perm _) hu ha (by simpa using hlen) hX
  | permute hindex hplaces harranged hu =>
    cases hX with
    | binary hl hr ha hb hlaw =>
      cases hs
      exact permute_pushed ho hv hl hr hb hlaw hindex hplaces harranged hu
  | elementwise hop hl' hr' =>
    cases hX with
    | binary hl hr ha hb hlaw =>
      cases hs
      exact elementwise_pushed ho hv hl hr ha hb hlaw hop hl' hr'
  | outer hindex hshape _ hu hw =>
    cases hX with
    | binary hl hr ha hb hlaw =>
      cases hs
      cases ha.symm.trans hshape
      exact outer_pushed ho hv hl hr ha hb hlaw hindex hu hw
  | inner hindex hshape hle hg hk hu hw =>
    cases hX with
    | binary hl hr ha hb hlaw =>
      cases hs
      cases ha.symm.trans hshape
      exact inner_pushed ho hv hl hr ha hb hlaw hindex hle hg hk hu hw
  | reduce hindex hshape hg hk hu =>
    cases hX with
    | unary hX ha hlaw =>
      cases hs
      cases ha.symm.trans hshape
      cases hlaw
      exact reduce_pushed ho hv hX ha hindex hg hk hu

theorem Pushes.shape_eq {s : Option Shape} (h : Pushes t s v X e t') : e.shape = s := by
  cases h <;> rfl

/-- An index vector of the shaped tree has at most one entry for each axis. -/
theorem Part.psi (hp : Part t₀ e) (ht₀ : t₀.Declared) (hop : e.op = .psi) :
    ∃ s v X shape, e = .binary .psi s v X ∧ IndexVector t₀ t shape.length v ∧
      X.shape = some shape ∧ Part t₀ X := by
  cases hp with
  | leaf => cases hop
  | unary _ _ hlaw => cases hlaw <;> cases hop
  | binary hv hX ha hb hlaw =>
    cases hop
    refine ⟨_, _, _, _, rfl, .part hv fun index hindex => ?_, hb, hX⟩
    obtain ⟨name, rfl, -⟩ := hv.literal_of_valueOf ht₀ hindex
    cases ha
    cases hlaw with
    | psi hle => rwa [Shape.indexRank_natCast] at hle

theorem Reducing.indexed (h : Reducing t₀ t e) (ht₀ : t₀.Declared) (hop : e.op = .psi) :
    ∃ s v X shape, e = .binary .psi s v X ∧ IndexVector t₀ t shape.length v ∧
      X.shape = some shape ∧ Part t₀ X := by
  cases h with
  | part hp => exact hp.psi ht₀ hop
  | vector hv =>
    cases hv with
    | part hp => exact hp.psi ht₀ hop
    | literal => cases hop
  | psi hv hs hX => exact ⟨_, _, _, _, rfl, hv, hs, hX⟩
  | join hjoin =>
    cases hop
    simp [Operator.isElementwise] at hjoin
  | fold => cases hop

theorem Reducing.child (h : Reducing t₀ t e) {c : Expr} (hc : c ∈ e.children) :
    Reducing t₀ t c := by
  cases h with
  | part hp => exact .part (hp.child hc)
  | vector hv =>
    cases hv with
    | part hp => exact .part (hp.child hc)
    | literal => cases hc
  | psi hv _ hX =>
    rcases List.mem_pair.1 hc with rfl | rfl
    · exact .vector hv
    · exact .part hX
  | join _ hl hr =>
    rcases List.mem_pair.1 hc with rfl | rfl
    · exact hl
    · exact hr
  | fold _ hb => exact List.mem_singleton.1 hc ▸ hb

end

/-! ## The whole traversal -/

/-- A tree on the way, over tables that belong together. -/
structure IndexInv (t₀ : SymbolTable) (c : Context) : Prop where
  base : Over t₀ c.table
  tree : Reducing t₀ c.table c.tree

/-- A tree before and after a traversal that keeps the indices. -/
structure IndexRel (c c' : Context) : Prop where
  grows : Grows c.table c'.table
  known : c'.tree.Known c'.table
  shape : c'.tree.shape = c.tree.shape
  op_ne_condition : c.tree.op ≠ .condition → c'.tree.op ≠ .condition
  scopes : Scopes c.table (c.tree.uses c.table) c.tree.boundIndices c'.table
    (c'.tree.uses c'.table) c'.tree.boundIndices
  in_scope : ∀ {scope}, c.tree.Scoped c.table scope → c'.tree.Scoped c'.table scope

section
variable {t₀ : SymbolTable}

theorem IndexRel.trans {a b c : Context} (h₁ : IndexRel a b) (h₂ : IndexRel b c) : IndexRel a c :=
  ⟨h₁.grows.trans h₂.grows, h₂.known, h₂.shape.trans h₁.shape,
    fun h => h₂.op_ne_condition (h₁.op_ne_condition h), h₁.scopes.trans h₁.grows.entries h₂.scopes,
    fun h => h₂.in_scope (h₁.in_scope h)⟩

theorem step_indices {c c' : Context} (hc : IndexInv t₀ c) (h : Rule.rewrite c = .ok (some c')) :
    IndexInv t₀ c' ∧ IndexRel c c' := by
  have hop := Rule.rewrite_op h
  obtain ⟨tree, t⟩ := c
  obtain ⟨s, v, X, shape, rfl, hv, hs, hX⟩ := hc.tree.indexed hc.base.declared hop
  have hpushes := Rule.rewrite_psi h
  have hpushed := hpushes.pushed hc.base hv hs hX
  have hover := hc.base.grow hpushed.grows
  refine ⟨⟨hover, hpushed.reducing⟩, hpushed.grows, hpushed.reducing.known hover.extends_base,
    hpushes.shape_eq, fun _ => hpushed.reducing.op_ne_condition, ?_, fun hscoped => ?_⟩
  · rw [Expr.bound_binary, hv.bound, hX.bound]
    refine ⟨fun name hi => ?_, hpushed.scopes.bound, hpushed.scopes.fresh⟩
    exact (hpushed.scopes.used name hi).trans (uses_psi hc.base hX hi).symm
  · exact hpushed.in_scope ((Expr.scoped_iff hv.bound).1 (Expr.scoped_binary.1 hscoped).1)

theorem threads_indices {t t' : SymbolTable} {es es' : List Expr}
    (h : Traversal.Threads IndexRel t es es' t') (ht : t.Sound) (hk : ∀ e ∈ es, e.Known t) :
    Grows t t' ∧ (∀ e ∈ es', e.Known t') ∧
      Scopes t (Expr.usesAll t es) (Expr.boundIndicesAll es) t' (Expr.usesAll t' es')
        (Expr.boundIndicesAll es') ∧
      ∀ {scope}, (∀ e ∈ es, e.Scoped t scope) → ∀ e ∈ es', e.Scoped t' scope := by
  induction h with
  | nil => exact ⟨.refl _, by simp, .refl, fun _ => by simp⟩
  | @cons t t₁ t₂ e e' es es' hrel _ ih =>
    have hg₁ : Grows t t₁ := hrel.grows
    obtain ⟨hg₂, hknown, hscopes, hscoped⟩ := ih (hg₁.sound ht)
      fun e he => (hk e (.tail _ he)).mono hg₁.entries
    have hfirst : e'.Known t₁ := hrel.known
    have huses : ∀ {c}, c ∈ es → c.uses t₁ = c.uses t :=
      fun hc => Expr.uses_extends hg₁.entries (hk _ (.tail _ hc))
    refine ⟨hg₁.trans hg₂, List.forall_mem_cons.2 ⟨hfirst.mono hg₂.entries, hknown⟩, ?_,
      fun {scope} hes => ?_⟩
    · rw [Expr.usesAll, Expr.usesAll, Expr.boundIndicesAll, Expr.boundIndicesAll,
        Expr.uses_extends hg₂.entries hfirst]
      refine hrel.scopes.append hg₁.entries hg₂.entries ?_
        (Expr.uses_names (hg₁.sound ht) hfirst) fun name hn => ?_
      · rwa [Expr.usesAll_eq t₁, List.flatMap_congr fun c hc => huses hc, ← Expr.usesAll_eq] at hscopes
      · rw [Expr.usesAll_eq, List.mem_flatMap] at hn
        obtain ⟨c, hc, hn⟩ := hn
        exact Expr.uses_names ht (hk c (.tail _ hc)) name hn
    · obtain ⟨hhead, htail⟩ := List.forall_mem_cons.1 hes
      have hhead' : e'.Scoped t₁ scope := hrel.in_scope hhead
      refine List.forall_mem_cons.2
        ⟨(Expr.Scoped.extends_iff hg₂.entries (hg₁.sound ht) hfirst).2 hhead', hscoped fun c hc => ?_⟩
      exact (Expr.Scoped.extends_iff hg₁.entries ht (hk c (.tail _ hc))).2 (htail c hc)

theorem node_indices {c : Context} {es : List Expr} {t' : SymbolTable} (hc : IndexInv t₀ c)
    (h : Traversal.Threads IndexRel c.table c.tree.children es t') :
    IndexRel c ⟨c.tree.withChildren es, t'⟩ := by
  obtain ⟨⟨op, shape, payload, children⟩, t⟩ := c
  have hknown := hc.tree.known hc.base.extends_base
  obtain ⟨hg, hks, hscopes, hscoped⟩ := threads_indices h hc.base.sound hknown.child
  have hown := Expr.ownUses_extends hg.entries hknown
  refine ⟨hg, Expr.known_node.2 ⟨fun name hn => hg.entries.mem_names
    ((Expr.known_node.1 hknown).1 name hn), hks⟩, rfl, id, ?_, fun hs => ?_⟩
  all_goals simp only [Expr.withChildren, Expr.children_node] at hscopes ⊢
  · rw [Expr.uses, Expr.uses, Expr.boundIndices_node, Expr.boundIndices_node, hown]
    have huses := Expr.uses_names hc.base.sound hknown
    simp only [Expr.uses, List.forall_mem_append] at huses
    exact Scopes.append (.refl _) hg.entries .refl hscopes huses.1 huses.2
  · rw [Expr.scoped_node] at hs ⊢
    rw [hown]
    refine ⟨fun name hn hi => hs.1 name hn ?_, fun k hk => hg.entries.isIndex (hs.2.1 k hk),
      hscoped hs.2.2⟩
    have huses := Expr.uses_names hc.base.sound hknown
    simp only [Expr.uses, List.forall_mem_append] at huses
    rwa [hg.entries.isIndex_eq (huses.1 name hn)] at hi

/-- **Rewriting keeps the indices**, at every node of the traversal. -/
theorem preserves_indices :
    Traversal.Preserves Rule.rewrite Grows (IndexInv t₀) IndexRel where
  refl hc := ⟨.refl _, hc.tree.known hc.base.extends_base, rfl, id, .refl, id⟩
  trans := .trans
  grows h := h.grows
  mono h hg := ⟨h.base.grow hg, h.tree.mono hg.entries⟩
  step := step_indices
  child hc _ he := ⟨hc.base, hc.tree.child he⟩
  node hc _ h := node_indices hc h

end

/-! ## Free indices -/

theorem Shape.names_map_named (names : List String) : Shape.names (names.map .named) = names := by
  induction names with
  | nil => rfl
  | cons name names ih => rw [List.map_cons, names_cons_named, ih]

namespace Context.SeededTree

variable {t₀ t₁ t₂ : SymbolTable} {s c : Context} {e u : Expr} {shape : Shape}

theorem grows (h : s.SeededTree e shape u t₁ t₂) (hd : ∀ x ∈ shape, s.table.Dimension x) :
    Grows s.table t₂ :=
  (h.seeded.grows hd).trans (h.vector.grows h.seeded.index).1

/-- The indices of the seeded tree are the seeds. -/
theorem isIndex_iff (h : s.SeededTree e shape u t₁ t₂) (hs : ∀ name, s.table.isIndex name = false)
    {name : String} : t₂.isIndex name = true ↔ name ∈ s.seeds := by
  constructor
  · intro hi
    rcases h.seeded.isIndex (h.vector.isIndex hi) with hi | hn
    · rw [hs] at hi
      cases hi
    · exact hn
  · intro hn
    obtain ⟨bound, -, hb⟩ := exists_of_mem_right h.seeded.get?.flip hn
    have hx := (h.vector.grows h.seeded.index).1.entries
    exact SymbolTable.isIndex_iff.2 ⟨_, hx.get? hb, rfl⟩

theorem indexInv (h : s.SeededTree e shape u t₁ t₂) (ho : Over t₀ s.table) (he : Part t₀ e) :
    IndexInv t₀ ⟨.binary .psi (some shape) u e, t₂⟩ := by
  have hd : ∀ x ∈ shape, s.table.Dimension x := fun x hx =>
    (he.dimension ho.declared h.shape_eq x hx).mono ho.extends_base
  obtain ⟨-, name, rfl, hget⟩ := h.vector.grows h.seeded.index
  refine ⟨ho.grow (h.grows hd), .psi (.literal hget ?_) h.shape_eq he⟩
  exact Nat.le_of_eq (by rw [List.length_map, h.seeded.length_eq])

/-- The indices of the seeded tree are in the scope of the seeds. -/
theorem in_scope (h : s.SeededTree e shape u t₁ t₂) (he : Part t₀ e)
    (hs : ∀ name, s.table.isIndex name = false) :
    (Expr.binary .psi (some shape) u e).Scoped t₂ s.seeds := by
  refine (Expr.scoped_iff ?_).2 fun name _ hi => (h.isIndex_iff hs).1 hi
  obtain ⟨-, v, rfl, -⟩ := h.vector.grows h.seeded.index
  rw [Expr.bound_binary, Expr.bound_array, he.bound, List.append_nil]

/-- What the seeded tree becomes mentions the seeds, and binds none. -/
theorem seeds_free (h : s.SeededTree e shape u t₁ t₂) (ho : Over t₀ s.table) (he : Part t₀ e)
    (hs : ∀ name, s.table.isIndex name = false)
    (hrel : IndexRel ⟨.binary .psi (some shape) u e, t₂⟩ c) {name : String} (hn : name ∈ s.seeds) :
    name ∈ c.tree.uses c.table ∧ name ∉ c.tree.boundIndices := by
  have hi := (h.isIndex_iff hs).2 hn
  have hbase := (h.indexInv ho he).base
  obtain ⟨-, v, rfl, hv⟩ := h.vector.grows h.seeded.index
  rw [hrel.scopes.used name hi, hrel.scopes.bound name hi, uses_psi hbase he hi,
    Expr.bound_binary, Expr.bound_array, he.bound, Expr.uses_array, hv]
  simpa [Symbol.array, Shape.names_map_named] using hn

/-- It binds every other index that it mentions. -/
theorem others_bound (h : s.SeededTree e shape u t₁ t₂) (hs : ∀ name, s.table.isIndex name = false)
    (hrel : IndexRel ⟨.binary .psi (some shape) u e, t₂⟩ c) {name : String}
    (hi : c.table.isIndex name = true) (hn : name ∉ s.seeds) (hu : name ∈ c.tree.uses c.table) :
    name ∈ c.tree.boundIndices := by
  refine hrel.scopes.fresh name hi ?_ hu
  rw [Bool.eq_false_iff, ne_eq, h.isIndex_iff hs]
  exact hn

/-- **The free indices are the seeds**, in the order of the axes. -/
theorem freeIndices (h : s.SeededTree e shape u t₁ t₂) (ho : Over t₀ s.table) (he : Part t₀ e)
    (hs : ∀ name, s.table.isIndex name = false)
    (hrel : IndexRel ⟨.binary .psi (some shape) u e, t₂⟩ c) {t : SymbolTable}
    (hg : GrowsArrays c.table t) (ht : t.Sound) {indices : List String}
    (hfree : Context.freeIndices ⟨c.tree, t⟩ = .ok indices) : indices = s.seeds := by
  obtain ⟨used, hused, hindices⟩ := except_bind_ok.1 hfree
  cases hindices
  obtain rfl := Expr.valueNames_ok hused
  rw [Expr.uses_extends hg.grows.entries hrel.known]
  have hx₁ : Extends t₁ t := ((h.vector.grows h.seeded.index).1.entries.trans
    hrel.grows.entries).trans hg.grows.entries
  have hget : ∀ {name symbol}, t₁.get? name = some symbol → t.get? name = some symbol := hx₁.get?
  obtain ⟨rest, hrest⟩ := hx₁
  rw [h.seeded.entries] at hrest
  have hentry : ∀ {p}, p ∈ t.entries → t.get? p.1 = some p.2 := get?_of_mem ht.nodup
  -- the entries from before the seeds are no indices, those from after them are bound if used
  have hbefore : ∀ p ∈ s.table.entries, p.2.kind ≠ .index := by
    intro p hp hk
    have hi : s.table.isIndex p.1 = true :=
      SymbolTable.isIndex_iff.2 ⟨p.2, get?_of_mem ho.sound.nodup hp, hk⟩
    rw [hs] at hi
    cases hi
  have hafter : ∀ p ∈ rest, p.2.kind = .index → p.1 ∈ c.tree.uses c.table →
      p.1 ∈ c.tree.boundIndices := by
    intro p hp hk hu
    have hi : c.table.isIndex p.1 = true := hg.isIndex (SymbolTable.isIndex_iff.2
      ⟨p.2, hentry (hrest ▸ List.mem_append_right _ hp), hk⟩)
    refine h.others_bound hs hrel hi (fun hseed => ?_) hu
    have hnodup := ht.nodup
    rw [names, ← hrest, List.map_append, List.map_append, h.seeded.map_fst,
      List.nodup_append] at hnodup
    exact hnodup.2.2 p.1 (List.mem_append_right _ hseed) p.1 (List.mem_map_of_mem hp) rfl
  rw [← hrest, List.filter_append, List.filter_append, List.filter_eq_nil_iff.2,
    List.filter_eq_self.2, List.filter_eq_nil_iff.2, List.nil_append, List.append_nil,
    h.seeded.map_fst]
  · intro p hp
    have := hafter p hp
    simp only [Bool.and_eq_true, decide_eq_true_eq, Bool.not_eq_true', List.contains_eq_mem,
      decide_eq_false_iff_not]
    tauto
  · intro p hp
    have hn : p.1 ∈ s.seeds := h.seeded.map_fst ▸ List.mem_map_of_mem hp
    obtain ⟨bound, -, hb⟩ := exists_of_mem_right h.seeded.get?.flip hn
    have hp₂ := hentry (hrest ▸ List.mem_append_left _ (List.mem_append_right _ hp))
    rw [hget hb] at hp₂
    simp [h.seeds_free ho he hs hrel hn, ← Option.some.inj hp₂, Symbol.index]
  · intro p hp
    simp [hbefore p hp]

end Context.SeededTree

/-! ## Reduced contexts -/

/-- What is left of a shaped context `s` after its reduction to `r`. -/
structure Context.Reduced (s r : Context) (shape : Shape) : Prop where
  grows : Grows s.table r.table
  sound : r.table.Sound
  known : r.consequent.Known r.table
  root : r.consequent.shape = some shape
  /-- The lengths of the root are integers or lengths of the table's arrays. -/
  lengths : ∀ x ∈ shape, (∃ n, x = .int n) ∨ ∃ name symbol lengths,
    r.table.get? name = some symbol ∧ symbol.shape = some lengths ∧ x ∈ lengths
  /-- The guard at the root compares dimensions. -/
  guards : ∃ checks, GuardsAll r.table r.guard?.toList checks ∧ ∀ d ∈ checks, d.Within r.table
  condition : r.tree.op = .condition → (Condition.split? r.tree).isSome
  seeds : List.Forall₂ (fun name bound => r.table.get? name = some (.index bound)) s.seeds shape
  nodup : s.seeds.Nodup
  free : ∀ {t indices}, GrowsArrays r.table t →
    Context.freeIndices ⟨r.consequent, t⟩ = .ok indices → indices = s.seeds
  /-- The indices are mentioned where they are in scope. -/
  in_scope : r.consequent.Scoped r.table s.seeds

theorem Context.Reduced.seeds_generated {s r : Context} {shape : Shape} (h : s.Reduced r shape)
    {name : String} (hn : name ∈ s.seeds) : isGenerated name = true := by
  obtain ⟨bound, -, hb⟩ := exists_of_mem_right h.seeds.flip hn
  cases h.sound.entry hb with
  | index hg => exact hg

theorem Context.reduce_ok {c s r : Context} {limit : Nat} (hc : c.Raw) (hs : c.inferShapes = .ok s)
    (hr : s.reduce limit = .ok r) : ∃ shape, s.Reduced r shape := by
  obtain ⟨e, cs, ds, hshaped⟩ := Context.inferShapes_ok hc hs
  have hgrows := hshaped.grows.grows
  have hpart := hshaped.infers.part
  have ho := hshaped.over hc.declared
  have hnot : ∀ name, s.table.isIndex name = false := by
    intro name
    rw [Bool.eq_false_iff]
    intro hi
    have := hshaped.grows.isIndex hi
    rw [hc.declared.not_index] at this
    cases this
  obtain ⟨shape, u, t₁, t₂, hseeded, hrel, hguard, hcondition⟩ := Context.reduce_rel
    preserves_indices hpart.op_ne_condition hshaped.wrapped hr (fun h => h.indexInv ho hpart)
    (fun _ hrel => hrel.op_ne_condition (by simp [Expr.binary]))
  have hdims : ∀ x ∈ shape, s.table.Dimension x := fun x hx =>
    (hpart.dimension hc.declared hseeded.shape_eq x hx).mono hgrows.entries
  have hgrows₂ : Grows s.table r.table := (hseeded.grows hdims).trans hrel.grows
  have hsound := hgrows₂.sound ho.sound
  refine ⟨shape, hgrows₂, hsound, hrel.known, hrel.shape, fun x hx => ?_, ⟨ds, ?_, fun d hd => ?_⟩,
    hcondition, ?_, hseeded.seeded.nodup, fun hg hfree =>
      hseeded.freeIndices ho hpart hnot hrel hg (hg.grows.sound hsound) hfree,
    hrel.in_scope (hseeded.in_scope hpart hnot)⟩
  · refine (hpart.mem_shape hseeded.shape_eq hx).imp_right ?_
    rintro ⟨name, symbol, lengths, hget, hlengths, hmem⟩
    exact ⟨name, symbol, lengths, hgrows₂.entries.get? (hgrows.entries.get? hget), hlengths, hmem⟩
  · rw [hguard]
    exact (hshaped.wrapped.guards hpart.op_ne_condition).mono hgrows₂.entries
  · have hx := hgrows.entries.trans hgrows₂.entries
    obtain ⟨hl, hr⟩ := hshaped.infers.check_dimension hc.declared d (hshaped.subset hd)
    exact ⟨hl.mono hx, hr.mono hx⟩
  · have hx : Extends t₁ r.table :=
      (hseeded.vector.grows hseeded.seeded.index).1.entries.trans hrel.grows.entries
    exact hseeded.seeded.get?.imp fun _ _ hget => hx.get? hget

end PsiCalculus
