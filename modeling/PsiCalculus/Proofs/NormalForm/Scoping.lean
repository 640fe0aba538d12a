import PsiCalculus.Proofs.NormalForm.Indices
import PsiCalculus.Proofs.Tensor.Meaning

/-!
# What a tree in scope depends on

The value of a tree depends on the numbers that are in scope only: the dimensions of the table, the
indices that are set around the tree, and those that its own reductions bind. Memories that agree on
these and on the arrays that the tree mentions (`Memory.Within`) give the tree the same value,
whatever other names stand for.
-/

namespace PsiCalculus

open SymbolTable

/-- The memories agree on the dimensions of the table, the indices in scope, and some arrays. -/
structure Memory.Within {V : Type} (t : SymbolTable) (scope : List String) (arrays : String → Prop)
    (m m' : Memory V) : Prop where
  dimension : ∀ {x}, t.Dimension x → m'.env.element x = m.env.element x
  index : ∀ name ∈ scope, m'.number name = m.number name
  array : ∀ name, arrays name → m'.array name = m.array name

section
variable {V : Type} {D : Domain V} {t : SymbolTable} {scope : List String} {arrays : String → Prop}
  {m m' : Memory V}

/-- A leaf mentions the indices among the elements of its value. -/
theorem Expr.Scoped.value_names {v : Expr} (hv : v.Scoped t scope) {name : String} {s : Symbol}
    {values : Shape} (hname : v.arrayName? = some name) (hget : t.get? name = some s)
    (hvalue : s.value = some values) :
    ∀ n ∈ Shape.names values, t.isIndex n = true → n ∈ scope := by
  obtain ⟨op, shape, payload, children⟩ := v
  unfold Expr.arrayName? Expr.name? at hname
  split at hname
  · next hop =>
    obtain rfl : op = .array := hop
    cases payload with
    | name leaf =>
      cases hname
      have := (Expr.scoped_node.1 hv).1
      rwa [Expr.ownUses, hget, Option.bind_some, hvalue, Option.getD_some] at this
    | none | raise | function | loop => cases hname
  · cases hname

namespace Memory.Within

theorem bind (h : m.Within t scope arrays m') (k : String) (i : Int) :
    (m.bind k i).Within t (k :: scope) arrays (m'.bind k i) := by
  have hnumber : ∀ name, m'.number name = m.number name →
      (m'.bind k i).number name = (m.bind k i).number name := by
    intro name hn
    by_cases heq : name = k
    · rw [heq, bind_self, bind_self]
    · rw [bind_other m' i heq, bind_other m i heq, hn]
  refine ⟨fun {x} hx => ?_, fun name hn => ?_, h.array⟩
  · obtain ⟨n, rfl⟩ | ⟨name, rfl, -⟩ := id hx
    · rfl
    · exact hnumber name (h.dimension hx)
  · rcases List.mem_cons.1 hn with rfl | hn
    · rw [bind_self, bind_self]
    · exact hnumber name (h.index name hn)

/-- The elements of a value are dimensions, or indices that have to be in scope. -/
theorem elements (ht : t.Sound) (h : m.Within t scope arrays m') {name : String} {s : Symbol}
    {values : Shape} (hs : t.get? name = some s) (hv : s.value = some values)
    (hscope : ∀ n ∈ Shape.names values, t.isIndex n = true → n ∈ scope) :
    m'.env.elements values = m.env.elements values := by
  refine mapM_congr fun x hx => ?_
  rcases ht.value_element hs hv x hx with hd | ⟨k, bound, rfl, hk⟩
  · exact h.dimension hd
  · refine h.index k (hscope k (List.mem_filterMap.2 ⟨_, hx, rfl⟩) ?_)
    exact isIndex_iff.2 ⟨_, hk, rfl⟩

theorem valueOf (ht : t.Sound) (h : m.Within t scope arrays m') {v : Expr} (hv : v.Scoped t scope)
    {values : Shape} (hvalues : t.valueOf v = some values) :
    m'.env.elements values = m.env.elements values := by
  obtain ⟨s, hs, hvalue⟩ := Option.bind_eq_some_iff.1 hvalues
  obtain ⟨name, hname, hget⟩ := Option.bind_eq_some_iff.1 hs
  exact h.elements ht hget hvalue (hv.value_names hname hget hvalue)

theorem denoteName (ht : t.Sound) (h : m.Within t scope arrays m') {name : String}
    {shape : Option Shape} (hn : arrays name) (he : (Expr.array name shape).Scoped t scope) :
    denoteName D t m' name = denoteName D t m name := by
  unfold PsiCalculus.denoteName
  split
  · next values hvalues =>
    have heq : m'.env.elements values = m.env.elements values := h.valueOf ht he hvalues
    rw [heq]
  · exact h.array name hn

/-- An index runs up to a dimension. -/
theorem range (ht : t.Sound) (h : m.Within t scope arrays m') {k : String} (hk : t.isIndex k = true) :
    m'.range t k = m.range t k := by
  obtain ⟨s, hs, hkind⟩ := isIndex_iff.1 hk
  cases ht.entry hs with
  | user | vector | constant => cases hkind
  | @index bound _ hb =>
    simp [Memory.range, hs, Symbol.index, h.dimension hb]

end Memory.Within

/-- The operands of a node that binds nothing are in its scope. -/
theorem Expr.Scoped.child {op : Operator} {shape : Option Shape} {payload : Payload}
    {children : List Expr} (h : (Expr.node op shape payload children).Scoped t scope)
    (hb : Expr.ownBound op payload = []) : ∀ c ∈ children, c.Scoped t scope := by
  have := (Expr.scoped_node.1 h).2.2
  rwa [hb, List.nil_append] at this

end

end PsiCalculus
