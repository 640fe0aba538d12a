import PsiCalculus.Proofs.NormalForm.Seed
import PsiCalculus.Proofs.Tensor.Axes

/-!
# The free indices of a reduced tree

Reduction moves the seeded indices through the tree, reversed, permuted, cut and joined, and binds
indices of its own. In the end each seeded index is still used somewhere, none is bound, and every
other index that is used is bound: the free indices are the seeded ones, in the order of the axes.

* `Expr.uses t e`: the names that the index vectors of a tree mention.
* `Expr.Scoped t scope e`: each index is mentioned where it is in scope.
* `Scopes t used bound t' used' bound'`: of the indices of `t` the same ones are used and bound
  before and after, and what is used of the others is bound.
* `Reducing t₀ t e`: a tree on the way; no index vector is longer than what it indexes has axes, so
  that no index is lost to a scalar.
-/

namespace PsiCalculus

open SymbolTable

/-! ## Used and bound names -/

namespace Expr

/-- The names that a node of its own mentions in a value. -/
def ownUses (t : SymbolTable) : Operator → Payload → List String
  | .array, .name name => Shape.names (((t.get? name).bind Symbol.value).getD [])
  | _, _ => []

mutual

/-- The names that the values of the leaves of a tree mention. -/
def uses (t : SymbolTable) : Expr → List String
  | .node op _ payload children => ownUses t op payload ++ usesAll t children
termination_by structural e => e

/-- The names that the values of the leaves of several trees mention. -/
def usesAll (t : SymbolTable) : List Expr → List String
  | [] => []
  | c :: cs => c.uses t ++ usesAll t cs
termination_by structural cs => cs

end

/-- The index that a node of its own binds. -/
def ownBound : Operator → Payload → List String
  | .reduce _, .name index => [index]
  | _, _ => []

theorem boundIndices_node (op : Operator) (shape : Option Shape) (payload : Payload)
    (children : List Expr) : (node op shape payload children).boundIndices =
      ownBound op payload ++ boundIndicesAll children := by
  cases op <;> cases payload <;> rw [boundIndices] <;> first | rfl | simp

section
variable {t : SymbolTable}

theorem ownUses_none (op : Operator) : ownUses t op .none = [] := by
  cases op <;> rfl

theorem ownBound_none (op : Operator) : ownBound op .none = [] := by
  cases op <;> rfl

theorem uses_array (name : String) (shape : Option Shape) : (Expr.array name shape).uses t =
    Shape.names (((t.get? name).bind Symbol.value).getD []) := by
  simp [Expr.array, uses, usesAll, ownUses]

theorem uses_binary (op : Operator) (shape : Option Shape) (l r : Expr) :
    (Expr.binary op shape l r).uses t = l.uses t ++ r.uses t := by
  simp [Expr.binary, uses, usesAll, ownUses_none]

theorem bound_array (name : String) (shape : Option Shape) :
    (Expr.array name shape).boundIndices = [] := by
  simp [Expr.array, boundIndices_node, boundIndicesAll, ownBound]

theorem bound_unary (op : Operator) (shape : Option Shape) (e : Expr) :
    (Expr.unary op shape e).boundIndices = e.boundIndices := by
  simp [Expr.unary, boundIndices_node, boundIndicesAll, ownBound_none]

theorem bound_binary (op : Operator) (shape : Option Shape) (l r : Expr) :
    (Expr.binary op shape l r).boundIndices = l.boundIndices ++ r.boundIndices := by
  simp [Expr.binary, boundIndices_node, boundIndicesAll, ownBound_none]

end

mutual

/-- What is collected is what is used. -/
theorem valueNames_ok {t : SymbolTable} : ∀ {e : Expr} {names : List String},
    e.valueNames t = .ok names → names = e.uses t
  | .node op shape payload children, names, h => by
    unfold valueNames at h
    dsimp only at h
    split at h
    · obtain ⟨s, hs, h⟩ := except_bind_ok.1 h
      obtain ⟨own, hown, h⟩ := except_bind_ok.1 h
      obtain ⟨rest, hrest, h⟩ := except_bind_ok.1 h
      cases hown
      cases h
      rw [uses, ownUses, valueNamesAll_ok hrest, SymbolTable.get_ok.1 hs, Option.bind_some]
    · next hne =>
      obtain ⟨own, hown, h⟩ := except_bind_ok.1 h
      obtain ⟨rest, hrest, h⟩ := except_bind_ok.1 h
      cases hown
      cases h
      rw [uses, valueNamesAll_ok hrest, ownUses]
      exact hne
termination_by structural e => e

theorem valueNamesAll_ok {t : SymbolTable} : ∀ {es : List Expr} {names : List String},
    valueNamesAll t es = .ok names → names = usesAll t es
  | [], names, h => by
    cases h
    rfl
  | e :: es, names, h => by
    rw [valueNamesAll] at h
    obtain ⟨first, hfirst, h⟩ := except_bind_ok.1 h
    obtain ⟨rest, hrest, h⟩ := except_bind_ok.1 h
    cases h
    rw [usesAll, ← valueNames_ok hfirst, ← valueNamesAll_ok hrest]
termination_by structural es => es

end

theorem usesAll_eq (t : SymbolTable) : ∀ es : List Expr, usesAll t es = es.flatMap (uses t)
  | [] => rfl
  | e :: es => by rw [usesAll, usesAll_eq t es, List.flatMap_cons]

/-! ## Larger tables -/

section
variable {t t' : SymbolTable}

theorem ownUses_extends (h : Extends t t') {op : Operator} {shape : Option Shape}
    {payload : Payload} {children : List Expr} (hk : (node op shape payload children).Known t) :
    ownUses t' op payload = ownUses t op payload := by
  unfold ownUses
  split
  · rw [h.get?_eq hk.name]
  · rfl

/-- What a tree uses does not change with the table. -/
theorem uses_extends (h : Extends t t') {e : Expr} (hk : e.Known t) : e.uses t' = e.uses t := by
  induction e using Expr.induction_on_children with
  | node op shape payload children ih =>
    rw [uses, uses, ownUses_extends h hk, usesAll_eq, usesAll_eq]
    refine congrArg _ (List.flatMap_congr fun c hc => ?_)
    exact ih c hc (hk.child c hc)

end

end Expr

namespace SymbolTable

variable {t t' : SymbolTable}

theorem Dimension.names_subset {x : Element} (hx : t.Dimension x) {name : String}
    (hn : x.symbolName? = some name) : name ∈ t.names := by
  obtain ⟨n, rfl⟩ | ⟨other, rfl, -, hs⟩ := hx
  · cases hn
  · cases hn
    exact mem_names_of_get? hs

/-- The names in a vector are names of the table. -/
theorem names_of_elements {s : Shape} (hs : ∀ x ∈ s, t.Dimension x ∨ t.IndexElement x) :
    ∀ n ∈ Shape.names s, n ∈ t.names := by
  intro n hn
  obtain ⟨x, hx, hxn⟩ := List.mem_filterMap.1 hn
  rcases hs x hx with hd | ⟨k, bound, rfl, hk⟩
  · exact hd.names_subset hxn
  · cases hxn
    exact mem_names_of_get? hk

/-- The names in a value are names of the table. -/
theorem Sound.value_names (ht : t.Sound) {name : String} {s : Symbol} (hs : t.get? name = some s) :
    ∀ n ∈ Shape.names (s.value.getD []), n ∈ t.names := by
  cases hv : s.value with
  | none => exact List.forall_mem_nil _
  | some values => exact names_of_elements (ht.value_element hs hv)

end SymbolTable

theorem Expr.uses_names {t : SymbolTable} (ht : t.Sound) {e : Expr} (hk : e.Known t) :
    ∀ name ∈ e.uses t, name ∈ t.names := by
  induction e using Expr.induction_on_children with
  | node op shape payload children ih =>
    intro name hn
    rw [uses, usesAll_eq, List.mem_append, List.mem_flatMap] at hn
    rcases hn with hn | ⟨c, hc, hn⟩
    · unfold ownUses at hn
      split at hn
      · next leaf =>
        cases hs : t.get? leaf with
        | none => simp [hs, Shape.names] at hn
        | some s =>
          rw [hs, Option.bind_some] at hn
          exact ht.value_names hs name hn
      · cases hn
    · exact ih c hc (hk.child c hc) name hn

/-! ## Scopes -/

namespace Expr

mutual

/-- Every index that a leaf mentions is in scope, or a reduction around the leaf binds it, and
reductions bind indices. -/
def Scoped (t : SymbolTable) : List String → Expr → Prop
  | scope, .node op _ payload children =>
    (∀ name ∈ ownUses t op payload, t.isIndex name = true → name ∈ scope) ∧
      (∀ k ∈ ownBound op payload, t.isIndex k = true) ∧
      ScopedAll t (ownBound op payload ++ scope) children
termination_by structural _ e => e

/-- Every index that the leaves of several trees mention is in scope. -/
def ScopedAll (t : SymbolTable) : List String → List Expr → Prop
  | _, [] => True
  | scope, c :: cs => c.Scoped t scope ∧ ScopedAll t scope cs
termination_by structural _ cs => cs

end

section
variable {t t' : SymbolTable} {scope : List String}

theorem scopedAll_iff : ∀ {es : List Expr}, ScopedAll t scope es ↔ ∀ e ∈ es, e.Scoped t scope
  | [] => by simp [ScopedAll]
  | e :: es => by rw [ScopedAll, scopedAll_iff, List.forall_mem_cons]

theorem scoped_node {op : Operator} {shape : Option Shape} {payload : Payload}
    {children : List Expr} : (node op shape payload children).Scoped t scope ↔
      (∀ name ∈ ownUses t op payload, t.isIndex name = true → name ∈ scope) ∧
        (∀ k ∈ ownBound op payload, t.isIndex k = true) ∧
        ∀ c ∈ children, c.Scoped t (ownBound op payload ++ scope) := by
  rw [Scoped, scopedAll_iff]

theorem scoped_binary {op : Operator} {shape : Option Shape} {l r : Expr} :
    (Expr.binary op shape l r).Scoped t scope ↔ l.Scoped t scope ∧ r.Scoped t scope := by
  rw [Expr.binary, scoped_node, ownBound_none, ownUses_none]
  simp

theorem scoped_fold {op : ArithOp} {shape : Option Shape} {k : String} {body : Expr} :
    (Expr.node (.reduce op) shape (.name k) [body]).Scoped t scope ↔
      t.isIndex k = true ∧ body.Scoped t (k :: scope) := by
  rw [scoped_node]
  simp [ownUses, ownBound]

theorem boundIndicesAll_eq : ∀ es : List Expr, boundIndicesAll es = es.flatMap boundIndices
  | [] => rfl
  | e :: es => by rw [boundIndicesAll, boundIndicesAll_eq es, List.flatMap_cons]

/-- A tree that binds nothing has to find all its indices in scope. -/
theorem scoped_iff {e : Expr} (h : e.boundIndices = []) :
    e.Scoped t scope ↔ ∀ name ∈ e.uses t, t.isIndex name = true → name ∈ scope := by
  induction e using Expr.induction_on_children with
  | node op shape payload children ih =>
    rw [boundIndices_node, List.append_eq_nil_iff, boundIndicesAll_eq, List.flatMap_eq_nil_iff] at h
    rw [scoped_node, h.1, List.nil_append, uses, usesAll_eq, List.forall_mem_append]
    refine and_congr_right fun _ => ?_
    simp only [List.not_mem_nil, false_implies, implies_true, true_and, List.forall_mem_flatMap]
    exact forall₂_congr fun c hc => ih c hc (h.2 c hc)

theorem Scoped.extends_iff (hx : Extends t t') (ht : t.Sound) {e : Expr} (hk : e.Known t) :
    e.Scoped t' scope ↔ e.Scoped t scope := by
  induction e using Expr.induction_on_children generalizing scope with
  | node op shape payload children ih =>
    have huses : ∀ name ∈ ownUses t op payload, name ∈ t.names := by
      have := uses_names ht hk
      rw [uses, List.forall_mem_append] at this
      exact this.1
    have hbound : ∀ k ∈ ownBound op payload, k ∈ t.names := by
      intro k hmem
      unfold ownBound at hmem
      split at hmem
      · exact List.mem_singleton.1 hmem ▸ hk.name
      · cases hmem
    rw [scoped_node, scoped_node, ownUses_extends hx hk]
    refine and_congr (forall₂_congr fun name hn => ?_) (and_congr (forall₂_congr fun k hn => ?_)
      (forall₂_congr fun c hc => ?_))
    · rw [hx.isIndex_eq (huses name hn)]
    · rw [hx.isIndex_eq (hbound k hn)]
    · exact ih c hc (hk.child c hc)

end

end Expr

/-! ## What a traversal does to the indices -/

/-- Of the indices of `t` the same ones are used and bound before and after; of the others, the used
ones are bound. -/
structure Scopes (t : SymbolTable) (used bound : List String) (t' : SymbolTable)
    (used' bound' : List String) : Prop where
  used : ∀ name, t.isIndex name = true → (name ∈ used' ↔ name ∈ used)
  bound : ∀ name, t.isIndex name = true → (name ∈ bound' ↔ name ∈ bound)
  fresh : ∀ name, t'.isIndex name = true → t.isIndex name = false → name ∈ used' → name ∈ bound'

namespace Scopes

variable {t t₁ t₂ : SymbolTable} {used used₁ used₂ bound bound₁ bound₂ : List String}

theorem refl : Scopes t used bound t used bound :=
  ⟨fun _ _ => Iff.rfl, fun _ _ => Iff.rfl, fun name hi hn => by simp [hi] at hn⟩

theorem trans (h₁ : Scopes t used bound t₁ used₁ bound₁) (hx : Extends t t₁)
    (h₂ : Scopes t₁ used₁ bound₁ t₂ used₂ bound₂) : Scopes t used bound t₂ used₂ bound₂ := by
  refine ⟨fun name hi => ?_, fun name hi => ?_, fun name hi hn hu => ?_⟩
  · exact (h₂.used name (hx.isIndex hi)).trans (h₁.used name hi)
  · exact (h₂.bound name (hx.isIndex hi)).trans (h₁.bound name hi)
  · cases hi₁ : t₁.isIndex name with
    | false => exact h₂.fresh name hi hi₁ hu
    | true =>
      rw [h₂.bound name hi₁]
      exact h₁.fresh name hi₁ hn ((h₂.used name hi₁).1 hu)

/-- One traversal after the other, each of a tree of its own. -/
theorem append {uses uses₁ binds binds₁ : List String} (hx : Extends t t₁) (hx₁ : Extends t₁ t₂)
    (h₁ : Scopes t used bound t₁ used₁ bound₁) (h₂ : Scopes t₁ uses binds t₂ uses₁ binds₁)
    (hused : ∀ name ∈ used₁, name ∈ t₁.names) (huses : ∀ name ∈ uses, name ∈ t.names) :
    Scopes t (used ++ uses) (bound ++ binds) t₂ (used₁ ++ uses₁) (bound₁ ++ binds₁) := by
  refine ⟨fun name hi => ?_, fun name hi => ?_, fun name hi hn hu => ?_⟩
  · rw [List.mem_append, List.mem_append, h₁.used name hi, h₂.used name (hx.isIndex hi)]
  · rw [List.mem_append, List.mem_append, h₁.bound name hi, h₂.bound name (hx.isIndex hi)]
  · rw [List.mem_append] at hu ⊢
    rcases hu with hu | hu
    · rw [hx₁.isIndex_eq (hused name hu)] at hi
      exact .inl (h₁.fresh name hi hn hu)
    · cases hi₁ : t₁.isIndex name with
      | false => exact .inr (h₂.fresh name hi hi₁ hu)
      | true =>
        -- an index of the first traversal is not used by a tree that was there before
        have hmem := huses name ((h₂.used name hi₁).1 hu)
        rw [hx.isIndex_eq hmem, hn] at hi₁
        cases hi₁

/-- Without new indices only the old ones have to be looked at. -/
theorem same (hu : ∀ name, t.isIndex name = true → (name ∈ used₁ ↔ name ∈ used))
    (hi : ∀ name, t₁.isIndex name = true → t.isIndex name = true) :
    Scopes t used [] t₁ used₁ [] :=
  ⟨hu, fun _ _ => Iff.rfl, fun name h₁ hn _ => by simp [hi name h₁] at hn⟩

end Scopes

/-! ## Trees on the way -/

namespace Part

variable {t₀ t : SymbolTable} {e : Expr}

theorem bound (h : Part t₀ e) : e.boundIndices = [] := by
  induction h with
  | leaf => exact Expr.bound_array _ _
  | unary _ _ _ ih => rw [Expr.bound_unary, ih]
  | binary _ _ _ _ _ ihl ihr => rw [Expr.bound_binary, ihl, ihr, List.append_nil]

/-- A shaped tree uses no indices. -/
theorem not_index (h : Part t₀ e) (ht₀ : t₀.Declared) (hx : Extends t₀ t) {name : String}
    (hi : t.isIndex name = true) : name ∉ e.uses t := by
  intro hn
  rw [Expr.uses_extends hx h.known] at hn
  rw [hx.isIndex_eq (Expr.uses_names ht₀.sound h.known name hn), ht₀.not_index] at hi
  cases hi

/-- A part of known value is a vector literal. -/
theorem literal_of_valueOf (h : Part t₀ e) (ht₀ : t₀.Declared) {index : Shape}
    (hv : t₀.valueOf e = some index) :
    ∃ name, e = .array name (some [.int index.length]) ∧ t₀.get? name = some (.literal index) := by
  cases h with
  | @leaf name s shape hs hsh =>
    have hvalue : s.value = some index := by
      rw [valueOf, Expr.arrayName?] at hv
      simpa [Expr.array, Expr.name?, hs] using hv
    cases ht₀.entry hs with
    | user => cases hvalue
    | literal =>
      cases hvalue
      cases hsh
      exact ⟨name, rfl, hs⟩
  | unary _ _ hlaw => cases hlaw <;> simp [valueOf, Expr.arrayName?, Expr.unary] at hv
  | binary _ _ _ _ hlaw => cases hlaw <;> simp [valueOf, Expr.arrayName?, Expr.binary] at hv

end Part

/-- An index vector for at most `n` axes: a part of the shaped tree, or a leaf that was added. -/
inductive IndexVector (t₀ t : SymbolTable) (n : Nat) : Expr → Prop
  | part {v : Expr} : Part t₀ v → (∀ index, t₀.valueOf v = some index → index.length ≤ n) →
      IndexVector t₀ t n v
  | literal {name : String} {a : Option Shape} {values : Shape} :
      t.get? name = some (.literal values) → values.length ≤ n →
      IndexVector t₀ t n (.array name a)

/-- A tree on the way: indexed parts, joined and folded. -/
inductive Reducing (t₀ t : SymbolTable) : Expr → Prop
  | part {e : Expr} : Part t₀ e → Reducing t₀ t e
  | vector {n : Nat} {v : Expr} : IndexVector t₀ t n v → Reducing t₀ t v
  | psi {s : Option Shape} {v X : Expr} {shape : Shape} : IndexVector t₀ t shape.length v →
      X.shape = some shape → Part t₀ X → Reducing t₀ t (.binary .psi s v X)
  | join {op : Operator} {s : Option Shape} {l r : Expr} : op = .assign ∨ op.isElementwise = true →
      Reducing t₀ t l → Reducing t₀ t r → Reducing t₀ t (.binary op s l r)
  | fold {op : ArithOp} {s : Option Shape} {k : String} {bound : Element} {body : Expr} :
      t.get? k = some (.index bound) → Reducing t₀ t body →
      Reducing t₀ t (.node (.reduce op) s (.name k) [body])

/-- A table of declarations, and a larger one in the course of a compilation. -/
structure Over (t₀ t : SymbolTable) : Prop where
  declared : t₀.Declared
  extends_base : Extends t₀ t
  sound : t.Sound

theorem Over.refl {t : SymbolTable} (h : t.Declared) : Over t t :=
  ⟨h, .refl t, h.sound⟩

theorem Over.grow {t₀ t t' : SymbolTable} (h : Over t₀ t) (hg : Grows t t') : Over t₀ t' :=
  ⟨h.declared, h.extends_base.trans hg.entries, hg.sound h.sound⟩

/-- Inference leaves a table over the one it started from. -/
theorem Infer.Shaped.over {t₀ t : SymbolTable} {e e' : Expr} {s : Context} {cs ds : List Check}
    (h : Infer.Shaped t₀ t e s e' cs ds) (ht : t.Declared) : Over t s.table :=
  (Over.refl ht).grow h.grows.grows

section
variable {t₀ t t' : SymbolTable}

theorem IndexVector.mono {n : Nat} {v : Expr} (hx : Extends t t') (h : IndexVector t₀ t n v) :
    IndexVector t₀ t' n v := by
  cases h with
  | part hp hn => exact .part hp hn
  | literal hs hn => exact .literal (hx.get? hs) hn

theorem IndexVector.known {n : Nat} {v : Expr} (hx : Extends t₀ t) (h : IndexVector t₀ t n v) :
    v.Known t := by
  cases h with
  | part hp => exact hp.known.mono hx
  | literal hs => exact .array (mem_names_of_get? hs) _

theorem IndexVector.bound {n : Nat} {v : Expr} (h : IndexVector t₀ t n v) :
    v.boundIndices = [] := by
  cases h with
  | part hp => exact hp.bound
  | literal => exact Expr.bound_array _ _

/-- An index vector of known value mentions what its elements do. -/
theorem IndexVector.value (ho : Over t₀ t) {n : Nat} {v : Expr} (h : IndexVector t₀ t n v)
    {index : Shape} (hv : t.valueOf v = some index) :
    index.length ≤ n ∧ v.uses t = Shape.names index ∧
      ∀ x ∈ index, t.Dimension x ∨ t.IndexElement x := by
  have hliteral : ∀ {name a values}, t.get? name = some (.literal values) →
      (Expr.array name a).uses t = Shape.names values := by
    intro name a values hs
    rw [Expr.uses_array, hs]
    rfl
  cases h with
  | part hp hn =>
    rw [valueOf_extends ho.extends_base hp.known] at hv
    obtain ⟨name, rfl, hs⟩ := hp.literal_of_valueOf ho.declared hv
    have hs' := ho.extends_base.get? hs
    exact ⟨hn index hv, hliteral hs', ho.sound.literal_element hs'⟩
  | @literal name a values hs hn =>
    cases eq_of_valueOf_literal (.refl t) hs hv
    exact ⟨hn, hliteral hs, ho.sound.literal_element hs⟩

/-- An index vector for no axes uses no indices. -/
theorem IndexVector.not_index (ho : Over t₀ t) {v : Expr} (h : IndexVector t₀ t 0 v)
    {name : String} (hi : t.isIndex name = true) : name ∉ v.uses t := by
  cases h with
  | part hp => exact hp.not_index ho.declared ho.extends_base hi
  | literal hs hn =>
    obtain rfl := List.length_eq_zero_iff.1 (Nat.le_zero.1 hn)
    rw [Expr.uses_array, hs]
    simp [Symbol.array, Shape.names]

theorem Reducing.mono {e : Expr} (hx : Extends t t') (h : Reducing t₀ t e) :
    Reducing t₀ t' e := by
  induction h with
  | part hp => exact .part hp
  | vector hv => exact .vector (hv.mono hx)
  | psi hv hs hX => exact .psi (hv.mono hx) hs hX
  | join hop _ _ ihl ihr => exact .join hop ihl ihr
  | fold hk _ ih => exact .fold (hx.get? hk) ih

theorem Reducing.known {e : Expr} (hx : Extends t₀ t) (h : Reducing t₀ t e) : e.Known t := by
  induction h with
  | part hp => exact hp.known.mono hx
  | vector hv => exact hv.known hx
  | psi hv _ hX => exact (hv.known hx).binary (hX.known.mono hx)
  | join _ _ _ ihl ihr => exact ihl.binary ihr
  | fold hk _ ih => exact .named (mem_names_of_get? hk) ih

theorem Reducing.op_ne_condition {e : Expr} (h : Reducing t₀ t e) : e.op ≠ .condition := by
  cases h with
  | part hp => exact hp.op_ne_condition
  | vector hv =>
    cases hv with
    | part hp => exact hp.op_ne_condition
    | literal => simp [Expr.array]
  | psi | fold => simp [Expr.binary]
  | join hop =>
    rcases hop with rfl | hop
    · simp [Expr.binary]
    · rintro rfl
      cases hop

end

end PsiCalculus
