import PsiCalculus.Proofs.Progress.Printing
import Mathlib.Algebra.Order.BigOperators.Group.List
import Mathlib.Algebra.Order.Group.Nat

/-!
# Programs that compile

A program of the fragment that has shapes goes through all later stages: reduction within any limit
that is not below the number of its nodes, lowering with and without guards, and printing with and
without literals. The symbols that the stages enter into the table are bounded by `Context.demand`, so
that only a program of about as many symbols as there are words can run out of names.
-/

namespace PsiCalculus

open SymbolTable

/-- The symbols that are entered to check all arrays of the table as arguments, at most. -/
def SymbolTable.checksCost (t : SymbolTable) : Nat :=
  (t.entries.map fun entry => LoopNest.checkCost entry.2).sum

/-- The arguments are some of the arrays of the table. -/
theorem SymbolTable.sum_checkCost_le {t : SymbolTable} (ht : t.names.Nodup) {names : List String}
    (hn : names.Nodup) (hsub : names ⊆ t.names) :
    (names.map fun name => (t.get? name).elim 0 LoopNest.checkCost).sum ≤ t.checksCost := by
  obtain ⟨part, hperm, hsublist⟩ := hn.subperm hsub
  have hentries : (t.names.map fun name => (t.get? name).elim 0 LoopNest.checkCost) =
      t.entries.map fun entry => LoopNest.checkCost entry.2 := by
    rw [SymbolTable.names, List.map_map]
    refine List.map_congr_left fun entry hmem => ?_
    rw [Function.comp_apply, get?_of_mem ht hmem, Option.elim_some]
  rw [checksCost, ← hentries, ← (hperm.map _).sum_eq]
  exact (hsublist.map _).sum_le_sum fun _ _ => Nat.zero_le _

namespace Context

/-- The symbols that are entered after shapes are known, at most. -/
def demand (s : Context) : Nat :=
  (s.consequent.shape.getD []).length + 3 * s.tree.size + s.table.checksCost + 3

theorem size_wrapped {t : SymbolTable} {e tree : Expr} {ds : List Check} (h : Wrapped t e tree ds) :
    e.size ≤ tree.size := by
  cases h with
  | bare => exact Nat.le_refl _
  | guarded =>
    rw [Expr.binary, Expr.size_two]
    omega

/-- The function of a reduced program is made and printed. -/
theorem lower_prints {bound : Nat} {guards : Bool} {s r : Context} {shape : Shape}
    (hred : s.Reduced r shape) (hsettled : Settled r.table r.consequent) (hs : s.table.Sound)
    (hroom : r.table.Room bound (s.table.checksCost + 2)) :
    Attains bound (fun f => ∀ name literals, ∃ text, Python.program name literals f = .ok text)
      (r.lower guards) := by
  obtain ⟨arguments, harguments⟩ := hred.sound.arguments_run
  have huser : ∀ name ∈ arguments, ∃ symbol, s.table.get? name = some symbol ∧
      r.table.get? name = some symbol := by
    intro name hmem
    obtain ⟨⟨hu, a, hget⟩, -⟩ := (mem_arguments hred.sound harguments).1 hmem
    exact ⟨_, hred.grows.users name hu ▸ hget, hget⟩
  have hsum := sum_checkCost_le hs.nodup (nodup_arguments harguments) fun name hmem => by
    obtain ⟨symbol, hget, -⟩ := huser name hmem
    exact mem_names_of_get? hget
  have hcost : ∀ name ∈ arguments, ∃ symbol, r.table.get? name = some symbol ∧
      LoopNest.checkCost symbol ≤ (s.table.get? name).elim 0 LoopNest.checkCost := by
    intro name hmem
    obtain ⟨symbol, hget, hget'⟩ := huser name hmem
    exact ⟨symbol, hget', by rw [hget, Option.elim_some]⟩
  refine (lower_attains hred hsettled harguments hcost (hroom.mono ?_)).imp fun f hf _ => ?_
  · exact Nat.add_le_add_right hsum 2
  · obtain ⟨parts, hparts⟩ := LoopNest.lower_ok hred.condition hf
    exact hparts.program_run hred hsettled

/-- **A program that has shapes compiles.** Its reduction succeeds within every limit that is not below
the number of its nodes, and so does its lowering, with guards or without, and its printing, with
literals or without. No stage fails for a reason of its own: the only other outcome is a table that
runs out of names, which takes more symbols than there are words. -/
theorem compile_attains {source : String} {limit : Nat} {c s : Context}
    (hc : Context.parse source = .ok c) (hprogram : c.tree.isProgram = true)
    (hs : c.inferShapes = .ok s) (hlimit : s.tree.size ≤ limit) :
    Attains (s.table.size + s.demand)
      (fun r => ∀ guards, Attains (s.table.size + s.demand)
        (fun f => ∀ name literals, ∃ text, Python.program name literals f = .ok text)
        (r.lower guards))
      (s.reduce limit) := by
  have hraw := Context.parse_raw hc
  obtain ⟨e, cs, ds, hshaped⟩ := Context.inferShapes_ok hraw hs
  have hgrows := hshaped.grows.grows
  obtain ⟨k, hk⟩ := hshaped.infers.program hraw.declared hprogram
  have hwrapped := hshaped.wrapped
  have hcons : s.consequent = e := hwrapped.consequent hk.op_ne_condition
  have hroom : s.table.Room (s.table.size + s.demand)
      (k + 1 + (3 * e.size + (s.table.checksCost + 2))) := by
    refine ⟨hshaped.grows.counted (Context.parse_counted hc), ?_⟩
    obtain ⟨shape, hshape, rfl⟩ := hk.exists_shape
    have hsize := size_wrapped hwrapped
    rw [demand, hcons, hshape, Option.getD_some]
    omega
  refine (reduce_attains hwrapped (hk.mono hgrows.entries) hlimit hroom).imp fun r hr hreduced => ?_
  obtain ⟨hroom', hsettled⟩ := hreduced
  obtain ⟨shape, hred⟩ := Context.reduce_ok hraw hs hr
  exact fun guards => lower_prints hred hsettled (hgrows.sound hraw.declared.sound) hroom'

/-- The transpose of a matrix product, assigned to a matrix. -/
theorem compile_attains_product : ∃ c s r,
    Context.parse "C ^ <n m> := <1 0> tran (A ^ <m k> + . * B ^ <k n>)" = .ok c ∧
    c.tree.isProgram = true ∧ c.inferShapes = .ok s ∧ s.reduce s.tree.size = .ok r ∧
    ∀ guards, ∃ f, r.lower guards = .ok f ∧
      ∀ name literals, ∃ text, Python.program name literals f = .ok text := by
  have hrun : (do
      let c ← Context.parse "C ^ <n m> := <1 0> tran (A ^ <m k> + . * B ^ <k n>)"
      let s ← c.inferShapes
      return decide (c.tree.isProgram = true ∧ s.table.size + s.demand ≤ Text.maxWord)) =
      .ok true := by
    decide +kernel
  obtain ⟨c, hc, hrun⟩ := except_bind_ok.1 hrun
  obtain ⟨s, hs, hrun⟩ := except_bind_ok.1 hrun
  simp only [pure, Except.pure, Except.ok.injEq, decide_eq_true_eq] at hrun
  obtain ⟨hprogram, hwords⟩ := hrun
  obtain ⟨r, hr, hlower⟩ := (compile_attains hc hprogram hs (Nat.le_refl _)).exists_ok hwords
  exact ⟨c, s, r, hc, hprogram, hs, hr, fun guards => (hlower guards).exists_ok hwords⟩

end Context

end PsiCalculus
