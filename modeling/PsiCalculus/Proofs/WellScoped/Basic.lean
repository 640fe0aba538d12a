import PsiCalculus.Expr.Names
import PsiCalculus.Proofs.Growth

/-!
# Scopes

What a context has to be for all of its names to make sense:

* `SymbolTable.Ordered`: no name has two entries, and what an entry says in its shape and its value
  are integers and scalars that were entered before it.
* `Expr.InScope t e`: the table has every name that the tree mentions, and the elements of shapes and
  of the ranges of loops are integers and scalars of the table.

The stages are computations that enter symbols and build trees. `Stays V t m P` is their logic: from a
good state, whose table extends `t`, the computation `m` arrives at a good state with a larger table,
in which its result has the property `P`. Computations with state are composed by `Stays.bind`; a
property of what is there already is carried along by growth (`Scalar.mono`, `InScope.mono`).
-/

namespace PsiCalculus

/-- The elements of the shape and of the value of a symbol. -/
def Symbol.elements (s : Symbol) : List Element := s.shape.getD [] ++ s.value.getD []

namespace SymbolTable

/-! ## Ordered tables -/

/-- An integer, or the name of a scalar among the entries. -/
def ScalarAmong (entries : List (String × Symbol)) (x : Element) : Prop :=
  (∃ n, x = .int n) ∨
    ∃ name s, x = .named name ∧ entries.lookup name = some s ∧ s.shape = some []

/-- An integer, or the name of a scalar of the table. -/
def Scalar (t : SymbolTable) (x : Element) : Prop := ScalarAmong t.entries x

/-- One entry for each name, made of integers and of scalars that were entered before. Indices are
scalars. -/
structure Ordered (t : SymbolTable) : Prop where
  nodup : t.names.Nodup
  earlier : ∀ {before name s after}, t.entries = before ++ (name, s) :: after →
    ∀ x ∈ s.elements, ScalarAmong before x
  index : ∀ {name s}, (name, s) ∈ t.entries → s.kind = .index → s.shape = some []

section
variable {t t' : SymbolTable} {x : Element}

theorem Scalar.int (t : SymbolTable) (n : Int) : t.Scalar (.int n) := .inl ⟨n, rfl⟩

theorem Scalar.named {name : String} {s : Symbol} (h : t.get? name = some s)
    (hs : s.shape = some []) : t.Scalar (.named name) := .inr ⟨name, s, rfl, h, hs⟩

theorem ScalarAmong.append {entries : List (String × Symbol)} (h : ScalarAmong entries x)
    (later : List (String × Symbol)) : ScalarAmong (entries ++ later) x := by
  obtain ⟨n, rfl⟩ | ⟨name, s, rfl, hlookup, hs⟩ := h
  · exact .inl ⟨n, rfl⟩
  · exact .inr ⟨name, s, rfl, by rw [List.lookup_append, hlookup, Option.some_or], hs⟩

theorem Scalar.mono (h : Extends t t') (hx : t.Scalar x) : t'.Scalar x := by
  obtain ⟨later, hlater⟩ := h
  rw [Scalar, ← hlater]
  exact hx.append later

/-- A symbolic element is the leaf of a scalar. -/
theorem Scalar.symbolic {node : Expr} (h : t.Scalar (.symbolic node)) :
    ∃ name s, node = .array name (some []) ∧ t.get? name = some s ∧ s.shape = some [] := by
  obtain ⟨n, hn⟩ | ⟨name, s, hx, hget, hs⟩ := h
  · cases hn
  · cases hx
    exact ⟨name, s, rfl, hget, hs⟩

theorem Ordered.empty : Ordered empty :=
  ⟨List.nodup_nil, fun h => by simp [SymbolTable.empty] at h,
    fun h => by simp [SymbolTable.empty] at h⟩

theorem Ordered.adds {name : String} {s : Symbol} (ht : t.Ordered) (ha : Adds t name s t')
    (hs : ∀ x ∈ s.elements, t.Scalar x) (hindex : s.kind = .index → s.shape = some []) :
    t'.Ordered := by
  refine ⟨ha.nodup ht.nodup, fun {before other s' after} hsplit => ?_, fun {other s'} hmem hk => ?_⟩
  · rw [ha.entries] at hsplit
    rcases List.eq_nil_or_concat after with rfl | ⟨after, last, rfl⟩
    · obtain ⟨rfl, hlast⟩ := List.append_inj' hsplit rfl
      cases hlast
      exact hs
    · rw [List.concat_eq_append, ← List.cons_append, ← List.append_assoc] at hsplit
      exact ht.earlier (List.append_inj' hsplit rfl).1
  · rw [ha.entries, List.mem_append, List.mem_singleton] at hmem
    rcases hmem with hmem | hmem
    · exact ht.index hmem hk
    · cases hmem
      exact hindex hk

/-- What an entry says are scalars. -/
theorem Ordered.elements {name : String} {s : Symbol} (ht : t.Ordered) (h : t.get? name = some s) :
    ∀ x ∈ s.elements, t.Scalar x := by
  obtain ⟨before, after, hsplit, -⟩ := List.lookup_eq_some_iff.1 h
  intro x hx
  rw [Scalar, hsplit]
  exact (ht.earlier hsplit x hx).append _

theorem Ordered.shape_scalar {name : String} {s : Symbol} {shape : Shape} (ht : t.Ordered)
    (h : t.get? name = some s) (hs : s.shape = some shape) : ∀ x ∈ shape, t.Scalar x :=
  fun x hx => ht.elements h x (by simp [Symbol.elements, hs, hx])

theorem Ordered.value_scalar {name : String} {s : Symbol} {value : Shape} (ht : t.Ordered)
    (h : t.get? name = some s) (hv : s.value = some value) : ∀ x ∈ value, t.Scalar x :=
  fun x hx => ht.elements h x (by simp [Symbol.elements, hv, hx])

end

end SymbolTable

open SymbolTable

/-! ## Trees in scope -/

/-- The elements of the range of a loop. -/
def Payload.elements : Payload → List Element
  | .loop _ start stop step => [start, stop, step]
  | _ => []

/-- The table has the names that the tree mentions, and the elements of shapes and ranges are
scalars. -/
inductive Expr.InScope (t : SymbolTable) : Expr → Prop
  | node {op : Operator} {shape : Option Shape} {payload : Payload} {children : List Expr} :
      (∀ name ∈ payload.names, ∃ s, t.get? name = some s) →
      (∀ x ∈ shape.getD [], t.Scalar x) → (∀ x ∈ payload.elements, t.Scalar x) →
      (∀ c ∈ children, InScope t c) → InScope t (.node op shape payload children)

namespace Expr.InScope

variable {t t' : SymbolTable} {e : Expr}

theorem mono (h : Extends t t') (he : e.InScope t) : e.InScope t' := by
  induction he with
  | node hnames hshape helements _ ih =>
    refine .node (fun name hn => ?_) (fun x hx => (hshape x hx).mono h)
      (fun x hx => (helements x hx).mono h) ih
    obtain ⟨s, hs⟩ := hnames name hn
    exact ⟨s, h.get? hs⟩

theorem children (h : e.InScope t) : ∀ c ∈ e.children, c.InScope t := by
  cases h with
  | node _ _ _ hc => exact hc

theorem shape {shape : Shape} (h : e.InScope t) (hs : e.shape = some shape) :
    ∀ x ∈ shape, t.Scalar x := by
  cases h with
  | node _ hshape =>
    cases hs
    exact hshape

theorem arrayName {name : String} (h : e.InScope t) (hn : e.arrayName? = some name) :
    ∃ s, t.get? name = some s := by
  cases h with
  | node hnames =>
    unfold Expr.arrayName? at hn
    split at hn
    · unfold Expr.name? at hn
      split at hn
      · next hp =>
        cases hn
        rw [Expr.payload_node] at hp
        subst hp
        exact hnames _ (.head _)
      · cases hn
    · cases hn

theorem withShape {shape : Option Shape} (h : e.InScope t) (hs : ∀ x ∈ shape.getD [], t.Scalar x) :
    (e.withShape shape).InScope t := by
  cases h with
  | node hnames _ helements hc => exact .node hnames hs helements hc

theorem withChildren {children : List Expr} (h : e.InScope t) (hc : ∀ c ∈ children, c.InScope t) :
    (e.withChildren children).InScope t := by
  cases h with
  | node hnames hshape helements _ => exact .node hnames hshape helements hc

theorem shape_getD (h : e.InScope t) : ∀ x ∈ e.shape.getD [], t.Scalar x := by
  cases h with
  | node _ hshape => exact hshape

theorem array {name : String} {s : Symbol} {shape : Option Shape} (h : t.get? name = some s)
    (hs : ∀ x ∈ shape.getD [], t.Scalar x) : (Expr.array name shape).InScope t :=
  .node (List.forall_mem_singleton.2 ⟨s, h⟩) hs (by simp [Payload.elements]) (by simp)

theorem plain {op : Operator} {shape : Option Shape} {children : List Expr}
    (hs : ∀ x ∈ shape.getD [], t.Scalar x) (hc : ∀ c ∈ children, c.InScope t) :
    (Expr.node op shape .none children).InScope t :=
  .node (by simp [Payload.names]) hs (by simp [Payload.elements]) hc

theorem unary {op : Operator} {shape : Option Shape} (hs : ∀ x ∈ shape.getD [], t.Scalar x)
    (he : e.InScope t) : (Expr.unary op shape e).InScope t :=
  .plain hs (List.forall_mem_singleton.2 he)

theorem binary {op : Operator} {shape : Option Shape} {l r : Expr}
    (hs : ∀ x ∈ shape.getD [], t.Scalar x) (hl : l.InScope t) (hr : r.InScope t) :
    (Expr.binary op shape l r).InScope t :=
  .plain hs (List.forall_mem_cons.2 ⟨hl, List.forall_mem_singleton.2 hr⟩)

theorem named {op : Operator} {shape : Option Shape} {name : String} {s : Symbol}
    {children : List Expr} (h : t.get? name = some s) (hs : ∀ x ∈ shape.getD [], t.Scalar x)
    (hc : ∀ c ∈ children, c.InScope t) : (Expr.node op shape (.name name) children).InScope t :=
  .node (List.forall_mem_singleton.2 ⟨s, h⟩) hs (by simp [Payload.elements]) hc

end Expr.InScope

/-- Every name of the tree is in the table, and every entry of the table is about earlier ones. -/
structure Context.WellScoped (c : Context) : Prop where
  tree : c.tree.InScope c.table
  table : c.table.Ordered

/-! ## Computations that stay in scope -/

/-- Where the table of a state is, and which states are good. -/
structure View (σ : Type) where
  table : σ → SymbolTable
  Good : σ → Prop

/-- From a good state whose table extends `t` the computation arrives at a good one with a larger
table, in which its result has the property. -/
def Stays {σ α : Type} (V : View σ) (t : SymbolTable) (m : StateT σ (Except Error) α)
    (P : SymbolTable → α → Prop) : Prop :=
  ∀ s s' a, V.Good s → Extends t (V.table s) → m.run s = .ok (a, s') →
    V.Good s' ∧ Extends (V.table s) (V.table s') ∧ P (V.table s') a

namespace Stays

variable {σ α β : Type} {V : View σ} {t : SymbolTable} {P : SymbolTable → α → Prop}
  {Q : SymbolTable → β → Prop}

theorem bind {m : StateT σ (Except Error) α} {f : α → StateT σ (Except Error) β} (hm : Stays V t m P)
    (hf : ∀ t₁ a, Extends t t₁ → P t₁ a → Stays V t₁ (f a) Q) : Stays V t (m >>= f) Q := by
  intro s s' b hs ht h
  obtain ⟨a, s₁, h₁, h₂⟩ := bind_ok.1 h
  obtain ⟨hs₁, hg₁, ha⟩ := hm s s₁ a hs ht h₁
  obtain ⟨hs₂, hg₂, hb⟩ := hf _ a (ht.trans hg₁) ha s₁ s' b hs₁ (.refl _) h₂
  exact ⟨hs₂, hg₁.trans hg₂, hb⟩

theorem pure {a : α} (h : ∀ t', Extends t t' → P t' a) : Stays V t (Pure.pure a) P := by
  intro s s' b hs ht hb
  cases pure_ok.1 hb
  exact ⟨hs, .refl _, h _ ht⟩

theorem map {m : StateT σ (Except Error) α} {f : α → β} (hm : Stays V t m P)
    (hf : ∀ t₁ a, P t₁ a → Q t₁ (f a)) : Stays V t (f <$> m) Q := by
  rw [map_eq_pure_bind]
  intro s s' b hs ht h
  obtain ⟨a, s₁, h₁, h₂⟩ := bind_ok.1 h
  obtain ⟨hs₁, hg₁, ha⟩ := hm s s₁ a hs ht h₁
  cases pure_ok.1 h₂
  exact ⟨hs₁, hg₁, hf _ a ha⟩

theorem throw (e : Error) : Stays V t (throw e) P := by
  intro s s' a hs ht h
  exact (throw_ok.1 h).elim

theorem ite {c : Prop} [Decidable c] {m m' : StateT σ (Except Error) α} (h : c → Stays V t m P)
    (h' : ¬ c → Stays V t m' P) : Stays V t (if c then m else m') P := by
  split
  · exact h ‹_›
  · exact h' ‹_›

theorem get : Stays V t get fun t' s => V.Good s ∧ V.table s = t' := by
  intro s s' a hs ht h
  cases get_ok.1 h
  exact ⟨hs, .refl _, hs, rfl⟩

theorem lift {x : Except Error α} (h : ∀ t' a, Extends t t' → x = .ok a → P t' a) :
    Stays V t (liftM x) P := by
  intro s s' a hs ht hx
  obtain ⟨a, hok, heq⟩ := lift_ok.1 hx
  cases heq
  exact ⟨hs, .refl _, h _ _ ht hok⟩

end Stays

/-! ## Entering symbols -/

/-- The table is the state. -/
def Grow.view : View SymbolTable := ⟨id, Ordered⟩

namespace Grow

variable {t : SymbolTable}

theorem stays_fresh {symbol : Symbol} (hs : ∀ x ∈ symbol.elements, t.Scalar x)
    (hindex : symbol.kind = .index → symbol.shape = some []) :
    Stays view t (fresh symbol) fun t' name => t'.get? name = some symbol := by
  intro s s' name hs' ht h
  obtain ⟨-, hadds⟩ := fresh_ok h
  exact ⟨hs'.adds hadds (fun x hx => (hs x hx).mono ht) hindex, hadds.grows, hadds.get?_self⟩

theorem stays_array {shape value : Option Shape} (hs : ∀ x ∈ shape.getD [], t.Scalar x)
    (hv : ∀ x ∈ value.getD [], t.Scalar x) :
    Stays view t (array shape value) fun t' e => e.InScope t' := by
  have hsymbol : ∀ x ∈ (Symbol.array shape value).elements, t.Scalar x :=
    List.forall_mem_append.2 ⟨hs, hv⟩
  exact (stays_fresh hsymbol (by simp [Symbol.array])).bind fun t₁ name h₁ hget =>
    .pure fun t' ht => .array (ht.get? hget) fun x hx => (hs x hx).mono (h₁.trans ht)

theorem stays_vector {values : Shape} (hv : ∀ x ∈ values, t.Scalar x) :
    Stays view t (vector values) fun t' e => e.InScope t' :=
  stays_array (List.forall_mem_singleton.2 (.int t _)) hv

theorem stays_scalar (n : Int) : Stays view t (scalar (.int n)) fun t' e => e.InScope t' :=
  stays_array (by simp) (List.forall_mem_singleton.2 (.int t n))

theorem stays_index {bound : Element} (hb : t.Scalar bound) :
    Stays view t (index bound) fun t' name => t'.Scalar (.named name) := by
  have hsymbol : ∀ x ∈ (Symbol.index bound).elements, t.Scalar x := by
    intro x hx
    simp only [Symbol.elements, Symbol.index, Option.getD_some, List.nil_append, List.mem_cons,
      List.not_mem_nil, or_false] at hx
    rcases hx with rfl | rfl | rfl
    · exact .int t _
    · exact hb
    · exact .int t _
  intro s s' name hs ht h
  obtain ⟨hs', hg, hget⟩ := stays_fresh hsymbol (fun _ => rfl) s s' name hs ht h
  exact ⟨hs', hg, .named hget rfl⟩

theorem stays_symbol (name : String) :
    Stays view t (symbol name) fun t' s => t'.Ordered ∧ t'.get? name = some s := by
  intro s s' symbol hs ht h
  obtain ⟨hget, rfl⟩ := symbol_ok.1 h
  exact ⟨hs, .refl _, hs, hget⟩

end Grow

/-- A tree that is built over the table of a context in scope is in scope. -/
theorem Context.WellScoped.grow {c c' : Context} {build : Grow Expr} (hc : c.WellScoped)
    (hbuild : Stays Grow.view c.table build fun t e => e.InScope t) (h : c.grow build = .ok c') :
    c'.WellScoped ∧ Extends c.table c'.table := by
  obtain ⟨htable, hgrows, htree⟩ := hbuild c.table c'.table c'.tree hc.table (.refl _)
    (Context.grow_ok.1 h)
  exact ⟨⟨htree, htable⟩, hgrows⟩

end PsiCalculus
