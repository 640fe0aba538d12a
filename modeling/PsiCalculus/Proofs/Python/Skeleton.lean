import PsiCalculus.Expr.Names
import PsiCalculus.Proofs.Python.Reading

/-!
# What the text of an expression conveys

`Python.skeleton` reads off a tree what its text is meant to convey: operators, names and literals, what
is indexed by what, and the ranges of reductions. Parentheses and the forms of selections are left out.

* `Writes.skeleton_eq`: the term that an expression is written as conveys the same.
* `Writes.legible`: an expression whose names are identifiers is written as a legible term.
* `expression_readable`: expressions with the same text have the same skeleton.
-/

namespace PsiCalculus

/-- The element is an integer, or the leaf of a scalar whose name is an identifier. -/
def Element.Legible (x : Element) : Prop :=
  (∃ n, x = .int n) ∨ ∃ name, x = .named name ∧ IsIdentifier name

/-- Values hold integers and scalars whose names are identifiers. -/
def SymbolTable.Legible (t : SymbolTable) : Prop :=
  ∀ name symbol values, t.get? name = some symbol → symbol.value = some values →
    ∀ x ∈ values, x.Legible

namespace Python

/-! ## Skeletons -/

/-- What an expression conveys. -/
inductive Skeleton
  /-- An array, or the literal of a scalar that is written as one. -/
  | leaf (a : Atom)
  | binary (op : Operator) (left right : Skeleton)
  | not (e : Skeleton)
  | dim (e : Skeleton)
  | shape (e : Skeleton)
  /-- The length of an axis. -/
  | axis (e : Skeleton) (place : Atom)
  | select (e : Skeleton) (indices : List Atom)
  | reduce (op : ArithOp) (index : String) (range : Range) (body : Skeleton)
  deriving DecidableEq

/-- An operand with the root `op` and what it is indexed by. Indexing by nothing is the operand, and one
index into a shape asks for an axis. -/
def Skeleton.indexed (op : Operator) (e : Skeleton) : List Atom → Skeleton
  | [] => e
  | [place] =>
    match op, e with
    | .shape, .shape e => .axis e place
    | _, e => .select e [place]
  | indices => .select e indices

/-- What the elements of an index vector are written as. -/
def indexAtoms? (p : Python) (vector : Expr) : Option (List Atom) := do
  let symbol ← p.table.get? (← vector.arrayName?)
  return (← symbol.value).map p.atom

/-- What the range of an index is written as. -/
def rangeAtoms? (p : Python) (index : String) : Option Range := do
  let symbol ← p.table.get? index
  match ← symbol.value with
  | [start, stop, step] => return p.rangeOf start stop step
  | _ => none

/-- What an expression conveys, read off the tree. -/
def skeleton (p : Python) : Expr → Option Skeleton
  | .node .array _ (.name name) _ => some (.leaf (p.atom (.named name)))
  | .node .psi _ _ (vector :: operand :: _) => do
    return .indexed operand.op (← p.skeleton operand) (← p.indexAtoms? vector)
  | .node (.arith op) _ _ (left :: right :: _) => do
    return .binary (.arith op) (← p.skeleton left) (← p.skeleton right)
  | .node (.compare op) _ _ (left :: right :: _) => do
    return .binary (.compare op) (← p.skeleton left) (← p.skeleton right)
  | .node (.logic op) _ _ (left :: right :: _) => do
    return .binary (.logic op) (← p.skeleton left) (← p.skeleton right)
  | .node .not _ _ (e :: _) => do return .not (← p.skeleton e)
  | .node .dim _ _ (e :: _) => do return .dim (← p.skeleton e)
  | .node .shape _ _ (e :: _) => do return .shape (← p.skeleton e)
  | .node (.reduce op) _ (.name index) (body :: _) => do
    return .reduce op index (← p.rangeAtoms? index) (← p.skeleton body)
  | _ => none
termination_by structural e => e

/-- What a term conveys. -/
def Term.skeleton? : Term → Option Skeleton
  | atom a => some (.leaf a)
  | between symbol left right => do
    return .binary (← operatorOf? symbol) (← left.skeleton?) (← right.skeleton?)
  | negated e => do return .not (← e.skeleton?)
  | rank e => do return .dim (← e.skeleton?)
  | shape e => do return .shape (← e.skeleton?)
  | axis e place => do
    match ← e.skeleton? with
    | .shape e => return .axis e place
    | _ => none
  | item e indices | part e indices => do return .select (← e.skeleton?) indices
  | fold op body index range => do return .reduce op index range (← body.skeleton?)

section
variable {p : Python}

theorem Writes.shape_term {X : Expr} {term : Term} (h : Writes p X term) (hop : X.op = .shape) :
    ∃ e, term = .shape e := by
  cases h with
  | shape => exact ⟨_, rfl⟩
  | between hbetween =>
    cases hop
    cases hbetween
  | array | psi | not | dim | fold => cases hop

theorem Term.skeleton?_select {X : Expr} {term : Term} (h : Writes p X term) {k : Skeleton}
    (hk : term.skeleton? = some k) (indices : List Atom) :
    (select X.op term indices).skeleton? = some (.indexed X.op k indices) := by
  have hitem : (item term indices).skeleton? = some (.select k indices) := by
    rw [skeleton?, hk]
    rfl
  have hpart : (part term indices).skeleton? = some (.select k indices) := by
    rw [skeleton?, hk]
    rfl
  rcases indices with _ | ⟨place, _ | ⟨second, rest⟩⟩
  · exact hk
  · by_cases hop : X.op = .shape
    · obtain ⟨e, rfl⟩ := h.shape_term hop
      obtain ⟨e', -, heq⟩ := Option.bind_eq_some_iff.1 hk
      cases heq
      have haxis : (axis (shape e) place).skeleton? = some (.axis e' place) := by
        rw [skeleton?, hk]
        rfl
      rw [hop]
      exact haxis
    · generalize X.op = op at hop ⊢
      cases op with
      | shape => exact absurd rfl hop
      | array => exact hitem
      | _ => exact hpart
  · generalize X.op = op
    cases op with
    | array => exact hitem
    | _ => exact hpart

/-- **The term that an expression is written as conveys what the expression does.** -/
theorem Writes.skeleton_eq {e : Expr} {term : Term} (h : Writes p e term) :
    ∃ k, p.skeleton e = some k ∧ term.skeleton? = some k := by
  induction h with
  | array => exact ⟨_, rfl, rfl⟩
  | @psi s payload v X rest name symbol values term hname hget hvalue hX ih =>
    obtain ⟨k, hk, hterm⟩ := ih
    refine ⟨_, ?_, Term.skeleton?_select hX hterm _⟩
    have hatoms : p.indexAtoms? v = some (values.map p.atom) := by
      simp [indexAtoms?, hname, hget, hvalue]
    rw [skeleton, hk, hatoms]
    rfl
  | @between op symbol s payload l r rest left right hop _ _ ihl ihr =>
    obtain ⟨k, hk, hleft⟩ := ihl
    obtain ⟨k', hk', hright⟩ := ihr
    refine ⟨.binary op k k', ?_, ?_⟩
    · cases op with
      | arith | compare | logic =>
        rw [skeleton, hk, hk']
        rfl
      | _ => cases hop
    · rw [Term.skeleton?, operatorOf?_eq_some.2 hop, hleft, hright]
      rfl
  | not _ ih | dim _ ih | shape _ ih =>
    obtain ⟨k, hk, hterm⟩ := ih
    rw [skeleton, hk, Term.skeleton?, hterm]
    exact ⟨_, rfl, rfl⟩
  | @fold op s index body rest symbol start stop step term hget hvalue _ ih =>
    obtain ⟨k, hk, hterm⟩ := ih
    have hrange : p.rangeAtoms? index = some (p.rangeOf start stop step) := by
      simp [rangeAtoms?, hget, hvalue]
    refine ⟨.reduce op index (p.rangeOf start stop step) k, ?_, ?_⟩
    · rw [skeleton, hrange, hk]
      rfl
    · rw [Term.skeleton?, hterm]
      rfl

/-! ## Legible expressions -/

theorem scalarValue?_legible (ht : p.table.Legible) {name : String} {value : Element}
    (h : p.scalarValue? name = some value) : value.Legible := by
  unfold scalarValue? at h
  split at h
  · split at h
    · next value' hget =>
      cases h
      exact ht _ _ _ hget rfl _ (.head _)
    · cases h
  · cases h

theorem atomWithin_legible (ht : p.table.Legible) {steps : Nat} {x : Element} (hx : x.Legible) :
    (p.atomWithin steps x).Legible := by
  have hnode : ∀ {node : Expr}, (Element.symbolic node).Legible →
      ∃ name, node.name? = some name ∧ IsIdentifier name := by
    rintro node (⟨n, hn⟩ | ⟨name, hnamed, hname⟩)
    · cases hn
    · cases hnamed
      exact ⟨name, rfl, hname⟩
  fun_induction atomWithin p steps x with
  | case1 => trivial
  | case2 steps node hnone =>
    obtain ⟨name, hsome, -⟩ := hnode hx
    cases hnone.symm.trans hsome
  | case3 node name hname steps value hvalue ih => exact ih (scalarValue?_legible ht hvalue)
  | case4 steps node name hname =>
    obtain ⟨_, hsome, hident⟩ := hnode hx
    cases hname.symm.trans hsome
    exact hident

theorem atom_legible (ht : p.table.Legible) {x : Element} (hx : x.Legible) : (p.atom x).Legible :=
  atomWithin_legible ht hx

theorem atoms_legible (ht : p.table.Legible) {name : String} {symbol : Symbol} {values : Shape}
    (hget : p.table.get? name = some symbol) (hvalue : symbol.value = some values) :
    ∀ a ∈ values.map p.atom, a.Legible := by
  intro a ha
  obtain ⟨x, hx, rfl⟩ := List.mem_map.1 ha
  exact atom_legible ht (ht name symbol values hget hvalue x hx)

theorem Term.legible_select (op : Operator) {e : Term} (he : e.Legible) {indices : List Atom}
    (h : ∀ a ∈ indices, a.Legible) : (select op e indices).Legible := by
  have hitem : (item e indices).Legible := ⟨he, h⟩
  have hpart : (part e indices).Legible := ⟨he, h⟩
  rcases indices with _ | ⟨place, _ | ⟨second, rest⟩⟩
  · exact he
  · cases op with
    | shape => exact ⟨he, h place (.head _)⟩
    | array => exact hitem
    | _ => exact hpart
  · cases op with
    | array => exact hitem
    | _ => exact hpart

theorem mem_namesAll {e : Expr} {es : List Expr} (he : e ∈ es) : e.names ⊆ Expr.namesAll es := by
  induction he with
  | head => exact List.subset_append_left _ _
  | tail _ _ ih => exact fun _ hn => List.mem_append_right _ (ih hn)

/-- An expression whose names are identifiers is written as a legible term. -/
theorem Writes.legible (ht : p.table.Legible) {e : Expr} {term : Term} (h : Writes p e term)
    (he : ∀ name ∈ e.names, IsIdentifier name) : term.Legible := by
  have hchild : ∀ {op : Operator} {s : Option Shape} {payload : Payload} {es : List Expr} {c : Expr},
      (∀ name ∈ (Expr.node op s payload es).names, IsIdentifier name) → c ∈ es →
      ∀ name ∈ c.names, IsIdentifier name :=
    fun h hc name hn => h name (List.mem_append_right _ (mem_namesAll hc hn))
  have hown : ∀ {op : Operator} {s : Option Shape} {name : String} {es : List Expr},
      (∀ n ∈ (Expr.node op s (.name name) es).names, IsIdentifier n) → IsIdentifier name :=
    fun h => h _ (.head _)
  induction h with
  | array => exact atom_legible ht (.inr ⟨_, rfl, hown he⟩)
  | psi _ hget hvalue _ ih =>
    exact Term.legible_select _ (ih (hchild he (.tail _ (.head _)))) (atoms_legible ht hget hvalue)
  | between hop _ _ ihl ihr =>
    exact ⟨⟨_, hop⟩, ihl (hchild he (.head _)), ihr (hchild he (.tail _ (.head _)))⟩
  | not _ ih | dim _ ih | shape _ ih => exact ih (hchild he (.head _))
  | @fold _ _ _ _ _ _ start stop step _ hget hvalue _ ih =>
    have hatoms := atoms_legible ht hget hvalue
    refine ⟨ih (hchild he (.head _)), hown he, ?_⟩
    simpa [Range.Legible, rangeOf] using hatoms

/-- **The text of an expression says what it conveys.** Expressions over one table that have the same
text have the same skeleton, if their names and those in the values of the table are identifiers. -/
theorem expression_readable (ht : p.table.Legible) {e e' : Expr}
    (he : ∀ name ∈ e.names, IsIdentifier name) (he' : ∀ name ∈ e'.names, IsIdentifier name)
    {text : String} (h : p.expression e = .ok text) (h' : p.expression e' = .ok text) :
    ∃ k, p.skeleton e = some k ∧ p.skeleton e' = some k := by
  obtain ⟨term, hterm⟩ := exists_writes h
  obtain ⟨term', hterm'⟩ := exists_writes h'
  have htext : term.text = term'.text :=
    Except.ok.inj (hterm.expression_eq.symm.trans (h.trans (h'.symm.trans hterm'.expression_eq)))
  obtain rfl := Term.text_injective (hterm.legible ht he) (hterm'.legible ht he') htext
  obtain ⟨k, hk, hterm⟩ := hterm.skeleton_eq
  obtain ⟨k', hk', hterm'⟩ := hterm'.skeleton_eq
  cases hterm.symm.trans hterm'
  exact ⟨k, hk, hk'⟩

/-- A scalar and the same scalar indexed by nothing are written as one literal. -/
theorem expression_readable_literal :
    let entries := [("A", .array (some [.int 3]) none), ("_i0", .index (.int 3)),
      ("_a1", .array (some [.int 1]) (some [.named "_i0"])), ("_a2", .array (some []) (some [.int 7])),
      ("_a3", .array (some [.int 0]) (some []))]
    let p : Python := ⟨⟨entries, 4⟩, true⟩
    let selected : Expr := .binary .psi (some []) (.array "_a1" (some [.int 1])) (.array "A" none)
    let scalar : Expr := .array "_a2" (some [])
    let e : Expr := .binary (.arith .plus) (some []) selected scalar
    let e' : Expr := .binary (.arith .plus) (some []) selected
      (.binary .psi (some []) (.array "_a3" (some [.int 0])) scalar)
    e ≠ e' ∧ p.expression e = .ok "(A[(_i0,)] + 7)" ∧ p.expression e' = .ok "(A[(_i0,)] + 7)" ∧
      ∃ k, p.skeleton e = some k ∧ p.skeleton e' = some k := by
  intro entries p selected scalar e e'
  have hident : ∀ name ∈ ["A", "_i0", "_a1", "_a2", "_a3"], IsIdentifier name := by
    simp only [List.forall_mem_cons]
    refine ⟨?_, ?_, ?_, ?_, ?_, List.forall_mem_nil _⟩
    all_goals exact ⟨_, _, rfl, rfl, List.all_eq_true.1 rfl⟩
  have hvalues : ∀ entry ∈ entries, ∀ x ∈ entry.2.value.getD [],
      x ∈ ([0, 1, 3, 7].map Element.int) ∨ x = .named "_i0" := by
    decide
  have ht : p.table.Legible := by
    intro name symbol values hget hvalue x hx
    rcases hvalues _ (SymbolTable.mem_entries_of_get? hget) x (by rwa [hvalue]) with hint | hnamed
    · obtain ⟨n, -, rfl⟩ := List.mem_map.1 hint
      exact .inl ⟨n, rfl⟩
    · exact .inr ⟨_, hnamed, hident _ (by decide)⟩
  have hnames : ∀ name ∈ e.names ++ e'.names, name ∈ ["A", "_i0", "_a1", "_a2", "_a3"] := by
    decide
  have htext : p.expression e = .ok "(A[(_i0,)] + 7)" := by rfl
  have htext' : p.expression e' = .ok "(A[(_i0,)] + 7)" := by rfl
  exact ⟨by decide, htext, htext', expression_readable ht
    (fun name hn => hident name (hnames name (List.mem_append_left _ hn)))
    (fun name hn => hident name (hnames name (List.mem_append_right _ hn))) htext htext'⟩

end

end Python

end PsiCalculus
