import PsiCalculus.Proofs.LoopNest.Arguments
import PsiCalculus.Proofs.LoopNest.Checks
import PsiCalculus.Proofs.LoopNest.Machine
import PsiCalculus.Proofs.NormalForm.FreeIndices

/-!
# The parts of a function

`Parts` are what lowering puts a function together from, and `Lowers guards c p f` says that the
context `c` is lowered to the function `f` with the parts `p`.

* `lower_ok`: lowering makes a function of parts.
* `Lowers.opening_eq`: the statements before the allocation and the loop nest are the checks.
-/

namespace PsiCalculus

open SymbolTable

namespace LoopNest

/-- The parts of a function: its arguments and their checks, the shape and the indices of its
expression, its result with the allocation, the body and the loops around it, and the tables after
the checks and after the result. -/
structure Parts where
  arguments : List String
  checks : Checks
  checked : SymbolTable
  shape : Shape
  indices : List String
  result : String
  allocation : List Expr
  body : Expr
  stored : SymbolTable
  nest : Expr

/-- Where a function stores: into the target of its assignment, or into a fresh result. -/
inductive Target (c : Context) (p : Parts) : Prop
  | own : c.consequent.op = .assign → p.allocation = [] → p.stored = p.checked →
      p.body = c.consequent → assignmentTarget c.consequent = .ok p.result → Target c p
  | fresh : c.consequent.op ≠ .assign → (store p.shape p.indices c.consequent).run p.checked =
      .ok ((p.result, p.allocation, p.body), p.stored) → Target c p

/-- How a function is made. -/
structure Lowers (guards : Bool) (c : Context) (p : Parts) (f : Context) : Prop where
  arguments : c.table.arguments = .ok p.arguments
  checks : (checkArguments {} p.arguments).run c.table = .ok (p.checks, p.checked)
  shape : c.consequent.shape = some p.shape
  indices : Context.freeIndices ⟨c.consequent, p.checked⟩ = .ok p.indices
  target : Target c p
  nest : (loops p.shape p.body p.indices).run p.stored = .ok (p.nest, f.table)
  tree : f.tree = .node .function (some p.shape) (.function p.arguments p.result)
    [.node .block none .none (preamble guards p.checks c.guard? ++ p.allocation ++ [p.nest])]

/-- The guard and the consequent are split where there is a guard. -/
theorem splitDomain_eq {c : Context}
    (hc : c.tree.op = .condition → (Condition.split? c.tree).isSome) :
    splitDomain c.tree = .ok (c.guard?, c.consequent) := by
  unfold splitDomain
  split
  · next hop =>
    obtain ⟨⟨g, e⟩, hsplit⟩ := Option.isSome_iff_exists.1 (hc hop)
    have hchildren : c.tree.children = [g, e] := by
      unfold Condition.split? at hsplit
      split at hsplit
      · next hch =>
        cases hsplit
        exact hch
      · cases hsplit
    have hg : c.tree.select [0] = .ok g := by simp [Expr.select, Expr.selectFrom, hchildren]
    have he : c.tree.select [1] = .ok e := by simp [Expr.select, Expr.selectFrom, hchildren]
    rw [hg, he, Context.guard?, Context.consequent, hsplit]
    rfl
  · next hop =>
    rw [Context.guard?, Context.consequent, Wrapped.split?_bare hop]
    rfl

/-- **Lowering makes a function of parts.** -/
theorem lower_ok {guards : Bool} {c f : Context}
    (hc : c.tree.op = .condition → (Condition.split? c.tree).isSome)
    (h : c.lower guards = .ok f) : ∃ p, Lowers guards c p f := by
  obtain ⟨arguments, harguments, h⟩ := except_bind_ok.1 h
  obtain ⟨⟨domain, e⟩, hsplit, h⟩ := except_bind_ok.1 h
  cases (splitDomain_eq hc).symm.trans hsplit
  obtain ⟨checks, t₁, hchecks, h⟩ := bind_ok.1 (Context.grow_ok.1 h)
  split at h
  · exact (throw_ok.1 h).elim
  · next shape hshape =>
    simp only [bind_ok, get_ok, lift_ok, Prod.mk.injEq] at h
    obtain ⟨_, _, ⟨rfl, rfl⟩, indices, _, ⟨_, hindices, rfl, rfl⟩, h⟩ := h
    split at h
    · next hop =>
      simp only [bind_ok, lift_ok, pure_ok, Prod.mk.injEq] at h
      obtain ⟨result, _, ⟨_, hresult, rfl, rfl⟩, _, _, ⟨rfl, rfl⟩, nest, _, hnest, htree, rfl⟩ := h
      exact ⟨⟨arguments, checks, t₁, shape, _, _, [], c.consequent, t₁, nest⟩, harguments, hchecks,
        hshape, hindices, .own hop rfl rfl rfl hresult, hnest, htree.symm⟩
    · next hop =>
      simp only [bind_ok, pure_ok, Prod.mk.injEq] at h
      obtain ⟨⟨result, allocation, body⟩, t₂, hstore, nest, _, hnest, htree, rfl⟩ := h
      exact ⟨⟨arguments, checks, t₁, shape, _, result, allocation, body, t₂, nest⟩, harguments,
        hchecks, hshape, hindices, .fresh hop hstore, hnest, htree.symm⟩

/-! ## The result and the loops -/

/-- A fresh result: its name, the vector of the indices, and the statements about them. -/
structure Stores (t : SymbolTable) (shape : Shape) (indices : List String) (e : Expr)
    (result : String) (allocation : List Expr) (body : Expr) (t' : SymbolTable) : Prop where
  exists_vector : ∃ v a t₁, Adds t result (.array (some shape) none) t₁ ∧
    Adds t₁ v (.literal (indices.map .named)) t' ∧
    body = .binary .assign (some shape)
      (.binary .psi (some shape) (.array v a) (.array result (some shape))) e
  allocation : allocation = [.node .allocate (some shape) (.name result) []]

theorem store_ok {t t' : SymbolTable} {shape : Shape} {indices : List String} {e body : Expr}
    {result : String} {allocation : List Expr}
    (h : (store shape indices e).run t = .ok ((result, allocation, body), t')) :
    Stores t shape indices e result allocation body t' := by
  simp only [store, bind_ok, pure_ok, Prod.mk.injEq] at h
  obtain ⟨_, t₁, hresult, vector, _, hvector, ⟨rfl, rfl, rfl⟩, rfl⟩ := h
  obtain ⟨v, -, hadds, rfl⟩ := Grow.vector_ok hvector
  exact ⟨⟨v, _, t₁, (Grow.fresh_ok hresult).2, hadds, rfl⟩, rfl⟩

theorem Stores.extends_table {t t' : SymbolTable} {shape : Shape} {indices : List String}
    {e body : Expr} {result : String} {allocation : List Expr}
    (h : Stores t shape indices e result allocation body t') : Extends t t' := by
  obtain ⟨v, a, t₁, hresult, hvector, -⟩ := h.exists_vector
  exact hresult.grows.trans hvector.grows

/-- Loops over the indices around a body, the first one outermost. -/
inductive Nested (t : SymbolTable) (shape : Shape) (body : Expr) : List String → Expr → Prop
  | nil : Nested t shape body [] body
  | cons {index : String} {rest : List String} {symbol : Symbol} {start stop step : Element}
      {inner : Expr} : t.get? index = some symbol → symbol.value = some [start, stop, step] →
      Nested t shape body rest inner → Nested t shape body (index :: rest)
        (.node .loop (some shape) (.loop index start stop step) [inner])

theorem loops_ok {shape : Shape} {body : Expr} : ∀ {indices : List String} {t t' : SymbolTable}
    {nest : Expr}, (loops shape body indices).run t = .ok (nest, t') →
      t' = t ∧ Nested t shape body indices nest
  | [], _, _, _, h => by
    cases pure_ok.1 h
    exact ⟨rfl, .nil⟩
  | index :: rest, t, t', nest, h => by
    simp only [loops, bind_ok] at h
    obtain ⟨inner, t₁, hinner, symbol, t₂, hsymbol, h⟩ := h
    obtain ⟨rfl, hnested⟩ := loops_ok hinner
    obtain ⟨hget, rfl⟩ := Grow.symbol_ok.1 hsymbol
    split at h
    · next hvalue =>
      cases pure_ok.1 h
      exact ⟨rfl, .cons hget hvalue hnested⟩
    · exact (throw_ok.1 h).elim

/-! ## The opening -/

theorem exists_of_mem_guardAll {kind : GuardKind} {conditions : List Expr} {e : Expr}
    (he : e ∈ guardAll kind conditions) : ∃ condition, e = guard kind condition := by
  obtain ⟨g, -, rfl⟩ := Option.map_eq_some_iff.1 (Option.mem_toList.1 he)
  exact ⟨g, rfl⟩

namespace Lowers

variable {guards : Bool} {c f : Context} {p : Parts}

theorem extends_checked (h : Lowers guards c p f) : Extends p.checked f.table := by
  obtain ⟨htable, -⟩ := loops_ok h.nest
  rw [htable]
  cases h.target with
  | own _ _ hstored => exact hstored ▸ .refl _
  | fresh _ hstore => exact (store_ok hstore).extends_table

theorem checked (h : Lowers guards c p f) (ht : c.table.Sound) :
    GrowsArrays c.table p.checked ∧
      Checked p.checked (declaredShapes c.table p.arguments) p.checks := by
  have hnames : ∀ name ∈ p.arguments, name ∈ c.table.names := by
    intro name hn
    obtain ⟨⟨-, shape, hs⟩, -⟩ := (mem_arguments ht h.arguments).1 hn
    exact mem_names_of_get? hs
  exact checkArguments_ok ht hnames h.checks ⟨.nil, .nil⟩

theorem preamble_op (h : Lowers guards c p f) (ht : c.table.Sound) :
    ∀ e ∈ preamble guards p.checks c.guard?, e.op ≠ .allocate := by
  have hguard : ∀ kind conditions, ∀ e ∈ guardAll kind conditions, e.op ≠ .allocate := by
    intro kind conditions e he
    obtain ⟨g, rfl⟩ := exists_of_mem_guardAll he
    simp [guard, Expr.binary]
  have hassign : ∀ e ∈ p.checks.assignments, e.op ≠ .allocate := by
    intro e he
    obtain ⟨named, compared, -, hs⟩ := (h.checked ht).2.surveys
    obtain ⟨a, -, ha⟩ := exists_of_mem_right hs.assignments.flip he
    cases ha
    simp [Expr.binary]
  intro e he
  unfold preamble at he
  split at he
  · simp only [List.mem_append] at he
    rcases he with ((he | he) | he) | he
    · exact hguard _ _ e he
    · exact hassign e he
    · exact hguard _ _ e he
    · obtain ⟨g, -, rfl⟩ := Option.map_eq_some_iff.1 (Option.mem_toList.1 he)
      simp [guard, Expr.binary]
  · exact hassign e he

/-- **The opening of a function is made of the checks** on its arguments. -/
theorem opening_eq (h : Lowers guards c p f) (ht : c.table.Sound) :
    opening f.tree = preamble guards p.checks c.guard? := by
  have hstop : p.allocation.takeWhile (·.op ≠ .allocate) = [] := by
    cases h.target with
    | own _ hnil => rw [hnil]; rfl
    | fresh _ hstore => rw [(store_ok hstore).allocation]; rfl
  rw [h.tree, opening, List.dropLast_concat, List.takeWhile_append_of_pos, hstop, List.append_nil]
  intro e he
  simpa using h.preamble_op ht e he

end Lowers

end LoopNest

end PsiCalculus
