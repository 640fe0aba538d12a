import PsiCalculus.Proofs.LoopNest.Function
import PsiCalculus.Proofs.Progress.Reduction

/-!
# Loop nests that are made

A reduced program has all that lowering asks for: its table has arguments, the names of its tree are
in the table, the indices that are free in it are the ones it was seeded with, which have ranges, and
an assignment has a name to store into. What is left to fail is the table.

* `checkArguments_attains`: the checks take one symbol for each argument and two for each of its axes.
* `Context.lower_attains`: lowering succeeds on a reduced program.
-/

namespace PsiCalculus

open SymbolTable

/-! ## Free indices -/

mutual

/-- The names that a tree uses are found if the table has the names of the tree. -/
theorem Expr.valueNames_run {t : SymbolTable} : ∀ {e : Expr}, e.Known t →
    ∃ names, e.valueNames t = .ok names
  | .node op shape payload children, h => by
    obtain ⟨rest, hrest⟩ := Expr.valueNamesAll_run h.child
    unfold valueNames
    dsimp only
    split
    · cases hget : t.get? _ with
      | none => exact absurd h.name (get?_eq_none_iff.1 hget)
      | some symbol =>
        rw [SymbolTable.get_ok.2 hget, hrest]
        exact ⟨_, rfl⟩
    · rw [hrest]
      exact ⟨_, rfl⟩
termination_by structural e => e

theorem Expr.valueNamesAll_run {t : SymbolTable} : ∀ {es : List Expr}, (∀ e ∈ es, e.Known t) →
    ∃ names, valueNamesAll t es = .ok names
  | [], _ => ⟨[], rfl⟩
  | e :: es, h => by
    obtain ⟨first, hfirst⟩ := Expr.valueNames_run (h e (.head _))
    obtain ⟨rest, hrest⟩ := Expr.valueNamesAll_run fun e' he' => h e' (.tail _ he')
    rw [valueNamesAll, hfirst, hrest]
    exact ⟨_, rfl⟩
termination_by structural es => es

end

theorem Context.freeIndices_run {c : Context} (h : c.tree.Known c.table) :
    ∃ indices, c.freeIndices = .ok indices := by
  obtain ⟨used, hused⟩ := Expr.valueNames_run h
  rw [freeIndices, hused]
  exact ⟨_, rfl⟩

namespace LoopNest

variable {bound n : Nat} {t : SymbolTable}

/-! ## Checks -/

theorem axisLength_attains (argument : Expr) (rank axis : Nat) (h : t.Room bound (n + 1)) :
    Attains bound (fun p => p.2.Room bound n) ((axisLength argument rank axis).run t) :=
  (Grow.array_attains _ _ h).bind_run fun _ _ hroom => .ok hroom

/-- The check of an axis takes at most two symbols. -/
theorem checkAxis_attains (argument : Expr) (rank axis : Nat) (checks : Checks) (length : Element)
    (h : t.Room bound (n + 2)) :
    Attains bound (fun p => p.2.Room bound n) ((checkAxis argument rank axis checks length).run t) := by
  cases length with
  | symbolic scalar =>
    refine (axisLength_attains argument rank axis (h.mono (Nat.le_succ _))).bind_run
      fun _ _ hroom => ?_
    dsimp only
    split
    · exact .ok hroom
    · exact .ok hroom
  | int =>
    refine (axisLength_attains argument rank axis h).bind_run fun _ _ hroom => ?_
    exact (Grow.array_attains _ _ hroom).bind_run fun _ _ hroom' => .ok hroom'

theorem checkAxes_attains (argument : Expr) (rank : Nat) : ∀ {shape : Shape} {axis : Nat}
    {checks : Checks} {t : SymbolTable}, t.Room bound (2 * shape.length + n) →
    Attains bound (fun p => p.2.Room bound n) ((checkAxes argument rank axis checks shape).run t)
  | [], _, _, _, h => .ok (h.mono (Nat.le_add_left _ _))
  | length :: shape, axis, checks, t, h => by
    have hroom : t.Room bound (2 * shape.length + n + 2) := h.mono (by rw [List.length_cons]; omega)
    exact (checkAxis_attains argument rank axis checks length hroom).bind_run
      fun _ _ hroom' => checkAxes_attains argument rank hroom'

/-- The symbols that are entered to check an argument, at most. -/
def checkCost (symbol : Symbol) : Nat := 1 + 2 * (symbol.shape.getD []).length

theorem checkArgument_attains {name : String} {symbol : Symbol} (hs : t.get? name = some symbol)
    (checks : Checks) (h : t.Room bound (checkCost symbol + n)) :
    Attains bound (fun p => p.2.Room bound n) ((checkArgument checks name).run t) := by
  refine .bind_run_of_ok (Grow.symbol_ok.2 ⟨hs, rfl⟩) ?_
  cases hshape : symbol.shape with
  | none => exact .ok (h.mono (Nat.le_add_left _ _))
  | some shape =>
    rw [checkCost, hshape, Option.getD_some] at h
    have hroom : t.Room bound (2 * shape.length + n + 1) := h.mono (by omega)
    exact (Grow.array_attains _ _ hroom).bind_run fun _ _ hroom' => checkAxes_attains _ _ hroom'

/-- **The arguments can be checked.** -/
theorem checkArguments_attains {cost : String → Nat} : ∀ {names : List String} {checks : Checks}
    {arguments : List (String × Shape)} {t : SymbolTable}, t.Sound →
    (∀ name ∈ names, ∃ symbol, t.get? name = some symbol ∧ checkCost symbol ≤ cost name) →
    Checked t arguments checks → t.Room bound ((names.map cost).sum + n) →
    Attains bound (fun p => p.2.Room bound n) ((checkArguments checks names).run t)
  | [], _, _, _, _, _, _, h => .ok (h.mono (Nat.le_add_left _ _))
  | name :: names, checks, arguments, t, ht, hnames, hc, h => by
    obtain ⟨symbol, hs, hcost⟩ := hnames name (.head _)
    have hroom : t.Room bound (checkCost symbol + ((names.map cost).sum + n)) :=
      h.mono (by rw [List.map_cons, List.sum_cons]; omega)
    have hfirst := (checkArgument_attains hs checks hroom).imp fun p hp hroom' => And.intro hp hroom'
    refine hfirst.bind_run fun checks₁ t₁ hrun => ?_
    obtain ⟨hgrows, hc₁⟩ := checkArgument_ok ht hrun.1 hc
    refine checkArguments_attains (hgrows.grows.sound ht) (fun other hmem => ?_) hc₁ hrun.2
    obtain ⟨symbol', hs', hcost'⟩ := hnames other (.tail _ hmem)
    exact ⟨symbol', hgrows.grows.entries.get? hs', hcost'⟩

/-! ## The result and the loops -/

theorem store_attains (shape : Shape) (indices : List String) (e : Expr) (h : t.Room bound (n + 2)) :
    Attains bound (fun p => p.2.Room bound n) ((store shape indices e).run t) := by
  refine (Grow.fresh_attains _ h).bind_run fun _ _ hroom => ?_
  exact (Grow.array_attains _ _ hroom).bind_run fun _ _ hroom' => .ok hroom'

theorem loops_run (shape : Shape) (body : Expr) : ∀ {indices : List String},
    (∀ index ∈ indices, ∃ length, t.get? index = some (.index length)) →
    ∃ nest, (loops shape body indices).run t = .ok (nest, t)
  | [], _ => ⟨body, rfl⟩
  | index :: rest, h => by
    obtain ⟨inner, hinner⟩ := loops_run shape body fun i hi => h i (.tail _ hi)
    obtain ⟨length, hlength⟩ := h index (.head _)
    have hsymbol : (Grow.symbol index).run t = .ok (.index length, t) :=
      Grow.symbol_ok.2 ⟨hlength, rfl⟩
    exact ⟨_, bind_ok.2 ⟨inner, t, hinner, bind_ok.2 ⟨_, t, hsymbol, rfl⟩⟩⟩

/-- An assignment that is reduced has a name to store into. -/
theorem assignmentTarget_run {e : Expr} (h : Settled t e) (hop : e.op = .assign) :
    ∃ name, assignmentTarget e = .ok name := by
  obtain ⟨s, a, b, v, name, index, value, rfl, -⟩ := h.of_assign hop
  exact ⟨name, rfl⟩

/-- **A function can be made of a reduced program.** -/
theorem function_attains {guards : Bool} {s r : Context} {shape : Shape} {arguments : List String}
    {cost : String → Nat} (hred : s.Reduced r shape) (hsettled : Settled r.table r.consequent)
    (harguments : ∀ name ∈ arguments, ∃ symbol, r.table.get? name = some symbol ∧
      checkCost symbol ≤ cost name)
    (hroom : r.table.Room bound ((arguments.map cost).sum + 2)) (domain : Option Expr) :
    Attains bound (fun _ => True)
      ((function guards arguments domain r.consequent).run r.table) := by
  have hnil : Checked r.table [] {} := ⟨.nil, .nil⟩
  have hchecks := (checkArguments_attains hred.sound harguments hnil hroom).imp
    fun p hp hroom' => And.intro hp hroom'
  refine hchecks.bind_run fun checks t₁ hrun => ?_
  have hnames : ∀ name ∈ arguments, name ∈ r.table.names := by
    intro name hmem
    obtain ⟨symbol, hs, -⟩ := harguments name hmem
    exact mem_names_of_get? hs
  obtain ⟨hgrows, -⟩ := checkArguments_ok hred.sound hnames hrun.1 hnil
  have hx := hgrows.grows.entries
  obtain ⟨indices, hindices⟩ := Context.freeIndices_run (c := ⟨r.consequent, t₁⟩)
    (hred.known.mono hx)
  obtain rfl := hred.free hgrows hindices
  have hranges : ∀ {t₂}, Extends t₁ t₂ → ∀ index ∈ s.seeds, ∃ length,
      t₂.get? index = some (.index length) := by
    intro t₂ hx₂ index hmem
    obtain ⟨length, -, hlength⟩ := exists_of_mem_right hred.seeds.flip hmem
    exact ⟨length, (hx.trans hx₂).get? hlength⟩
  rw [hred.root]
  refine .bind_run_of_ok rfl (.bind_run_of_ok (lift_ok.2 ⟨_, hindices, rfl⟩) ?_)
  by_cases hop : r.consequent.op = .assign
  · rw [if_pos hop]
    obtain ⟨result, hresult⟩ := assignmentTarget_run hsettled hop
    obtain ⟨nest, hnest⟩ := loops_run shape _ (hranges (.refl _))
    exact .bind_run_of_ok (lift_ok.2 ⟨_, hresult, rfl⟩)
      (.bind_run_of_ok rfl (.bind_run_of_ok hnest (.ok trivial)))
  · rw [if_neg hop]
    have hstore := (store_attains shape s.seeds r.consequent hrun.2).imp fun p hp _ => hp
    refine hstore.bind_run fun stored t₂ hstored => ?_
    obtain ⟨nest, hnest⟩ := loops_run shape _ (hranges (store_ok hstored).extends_table)
    exact .bind_run_of_ok hnest (.ok trivial)

end LoopNest

/-- **Lowering succeeds on a reduced program**, unless the table runs out of names. -/
theorem Context.lower_attains {bound : Nat} {guards : Bool} {s r : Context} {shape : Shape}
    {cost : String → Nat} (hred : s.Reduced r shape) (hsettled : Settled r.table r.consequent)
    {arguments : List String} (harguments : r.table.arguments = .ok arguments)
    (hcost : ∀ name ∈ arguments, ∃ symbol, r.table.get? name = some symbol ∧
      LoopNest.checkCost symbol ≤ cost name)
    (hroom : r.table.Room bound ((arguments.map cost).sum + 2)) :
    Attains bound (fun _ => True) (r.lower guards) := by
  refine .bind_of_ok harguments (.bind_of_ok (LoopNest.splitDomain_eq hred.condition) ?_)
  exact grow_attains (LoopNest.function_attains hred hsettled hcost hroom _)

end PsiCalculus
