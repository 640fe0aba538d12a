import PsiCalculus.Merge.Reachable
import PsiCalculus.Proofs.Growth

/-!
# The names a context needs

`Context.Needs` is the least set of names that holds those of the tree and, with the name of a
symbol, those the symbol depends on. `Context.reachable` computes it by a search with a list of the
names it has visited:

* `closure_sound`: every name it visits lies in each set that holds the pending names and is closed
  under dependencies.
* `closure_complete`: whatever was pending ends up visited, and so do the dependencies of what was
  visited on the way.
* `closure_defined`: it only stops at a name without a symbol.
* `closure_bound`, `closure_error`: every name it answers has a symbol, and the name it stops at is one
  that was asked for.

So `reachable_ok`: if every needed name has a symbol, the search answers the needed names; and
`reachable_unknown_iff`: it fails otherwise.
-/

namespace PsiCalculus

namespace SymbolTable

/-- With a name, the set holds what the symbol of the name depends on. -/
def ClosedUnder (t : SymbolTable) (P : String → Prop) : Prop :=
  ∀ name symbol, P name → t.get? name = some symbol → ∀ d ∈ symbol.dependencies, P d

variable {t : SymbolTable} {P : String → Prop}

theorem closure_sound (hP : t.ClosedUnder P) {pending visited names : List String}
    (h : t.closure pending visited = .ok names) (hp : ∀ name ∈ pending, P name)
    (hv : ∀ name ∈ visited, P name) : ∀ name ∈ names, P name := by
  fun_induction closure t pending visited generalizing names with
  | case1 visited =>
    cases h
    exact hv
  | case2 visited name rest _ ih => exact ih h (fun n hn => hp n (.tail _ hn)) hv
  | case3 => cases h
  | case4 visited name rest _ symbol hget ih =>
    have hname : P name := hp name (.head _)
    refine ih h (fun n hn => ?_) (fun n hn => ?_)
    · rcases List.mem_append.1 hn with hn | hn
      · exact hP name symbol hname hget n (List.mem_reverse.1 hn)
      · exact hp n (.tail _ hn)
    · rcases List.mem_cons.1 hn with rfl | hn
      · exact hname
      · exact hv n hn

theorem closure_complete {pending visited names : List String}
    (h : t.closure pending visited = .ok names) :
    visited ⊆ names ∧ pending ⊆ names ∧ ∀ name ∈ names, name ∉ visited →
      ∀ symbol, t.get? name = some symbol → symbol.dependencies ⊆ names := by
  fun_induction closure t pending visited generalizing names with
  | case1 visited =>
    cases h
    exact ⟨fun _ hn => hn, List.nil_subset _, fun name hn hnew => absurd hn hnew⟩
  | case2 visited name rest hold ih =>
    obtain ⟨hv, hp, hd⟩ := ih h
    exact ⟨hv, List.cons_subset.2 ⟨hv hold, hp⟩, hd⟩
  | case3 => cases h
  | case4 visited name rest hnew symbol hget ih =>
    obtain ⟨hv, hp, hd⟩ := ih h
    refine ⟨fun n hn => hv (.tail _ hn), List.cons_subset.2 ⟨hv (.head _), fun n hn => ?_⟩, ?_⟩
    · exact hp (List.mem_append_right _ hn)
    · intro n hn hold s hs
      by_cases hself : n = name
      · obtain rfl : symbol = s := Option.some.inj (hget.symm.trans (hself ▸ hs))
        intro d hd'
        exact hp (List.mem_append_left _ (List.mem_reverse.2 hd'))
      · exact hd n hn (by simp [hself, hold]) s hs

theorem closure_defined (hP : t.ClosedUnder P) (hget : ∀ name, P name → ∃ s, t.get? name = some s)
    {pending visited : List String} (hp : ∀ name ∈ pending, P name) :
    ∃ names, t.closure pending visited = .ok names := by
  fun_induction closure t pending visited with
  | case1 visited => exact ⟨visited, rfl⟩
  | case2 visited name rest _ ih => exact ih fun n hn => hp n (.tail _ hn)
  | case3 visited name rest _ hnone =>
    obtain ⟨s, hs⟩ := hget name (hp name (.head _))
    rw [hnone] at hs
    cases hs
  | case4 visited name rest _ symbol hsome ih =>
    refine ih fun n hn => ?_
    rcases List.mem_append.1 hn with hn | hn
    · exact hP name symbol (hp name (.head _)) hsome n (List.mem_reverse.1 hn)
    · exact hp n (.tail _ hn)

/-- A name is visited when its symbol is looked at. -/
theorem closure_bound {pending visited names : List String} (h : t.closure pending visited = .ok names)
    (hv : ∀ name ∈ visited, ∃ s, t.get? name = some s) :
    ∀ name ∈ names, ∃ s, t.get? name = some s := by
  fun_induction closure t pending visited generalizing names with
  | case1 visited =>
    cases h
    exact hv
  | case2 visited name rest _ ih => exact ih h hv
  | case3 => cases h
  | case4 visited name rest _ symbol hget ih =>
    exact ih h (List.forall_mem_cons.2 ⟨⟨symbol, hget⟩, hv⟩)

/-- A name is visited once. -/
theorem closure_nodup {pending visited names : List String} (h : t.closure pending visited = .ok names)
    (hv : visited.Nodup) : names.Nodup := by
  fun_induction closure t pending visited generalizing names with
  | case1 visited =>
    cases h
    exact hv
  | case2 visited name rest _ ih => exact ih h hv
  | case3 => cases h
  | case4 visited name rest hnew symbol _ ih => exact ih h (List.nodup_cons.2 ⟨hnew, hv⟩)

theorem closure_error (hP : t.ClosedUnder P) {pending visited : List String} {e : Error}
    (h : t.closure pending visited = .error e) (hp : ∀ name ∈ pending, P name) :
    ∃ name, e = .unknownSymbol name ∧ P name ∧ t.get? name = none := by
  fun_induction closure t pending visited with
  | case1 => cases h
  | case2 visited name rest _ ih => exact ih h fun n hn => hp n (.tail _ hn)
  | case3 visited name rest _ hnone =>
    cases h
    exact ⟨name, rfl, hp name (.head _), hnone⟩
  | case4 visited name rest _ symbol hsome ih =>
    refine ih h fun n hn => ?_
    rcases List.mem_append.1 hn with hn | hn
    · exact hP name symbol (hp name (.head _)) hsome n (List.mem_reverse.1 hn)
    · exact hp n (.tail _ hn)

end SymbolTable

namespace Context

/-- The names that the tree mentions, and those that the symbols of needed names depend on. -/
inductive Needs (c : Context) : String → Prop
  | tree {name : String} : name ∈ c.tree.names → Needs c name
  | symbol {name d : String} {s : Symbol} : Needs c name → c.table.get? name = some s →
      d ∈ s.dependencies → Needs c d

variable {c : Context}

theorem needs_closed (c : Context) : c.table.ClosedUnder c.Needs :=
  fun _ _ hn hs _ hd => .symbol hn hs hd

/-- The needed names are the least set of their kind. -/
theorem Needs.least {P : String → Prop} (htree : ∀ name ∈ c.tree.names, P name)
    (hP : c.table.ClosedUnder P) {name : String} (h : c.Needs name) : P name := by
  induction h with
  | tree h => exact htree _ h
  | symbol _ hs hd ih => exact hP _ _ ih hs _ hd

theorem mem_reachable_iff {names : List String} (h : c.reachable = .ok names) (name : String) :
    name ∈ names ↔ c.Needs name := by
  obtain ⟨-, hroots, hdeps⟩ := SymbolTable.closure_complete h
  constructor
  · refine SymbolTable.closure_sound c.needs_closed h (fun n hn => ?_) (fun n hn => ?_) name
    · exact .tree (List.mem_reverse.1 hn)
    · cases hn
  · refine Needs.least (fun n hn => hroots (List.mem_reverse.2 hn)) ?_
    intro n s hn hs d hd
    exact hdeps n hn List.not_mem_nil s hs hd

/-- **The search for reachable names.** If every needed name has a symbol, it answers the needed
names. -/
theorem reachable_ok (h : ∀ name, c.Needs name → ∃ s, c.table.get? name = some s) :
    ∃ names, c.reachable = .ok names ∧ ∀ name, name ∈ names ↔ c.Needs name := by
  obtain ⟨names, hnames⟩ : ∃ names, c.reachable = .ok names :=
    SymbolTable.closure_defined c.needs_closed h fun n hn => .tree (List.mem_reverse.1 hn)
  exact ⟨names, hnames, mem_reachable_iff hnames⟩

theorem reachable_nodup {names : List String} (h : c.reachable = .ok names) : names.Nodup :=
  SymbolTable.closure_nodup h List.nodup_nil

theorem reachable_error {e : Error} (h : c.reachable = .error e) :
    ∃ name, e = .unknownSymbol name ∧ c.Needs name ∧ c.table.get? name = none :=
  SymbolTable.closure_error c.needs_closed h fun _ hn => .tree (List.mem_reverse.1 hn)

/-- **The search fails** exactly if a needed name has no symbol. -/
theorem reachable_unknown_iff : (∃ name, c.reachable = .error (.unknownSymbol name)) ↔
    ∃ name, c.Needs name ∧ c.table.get? name = none := by
  constructor
  · rintro ⟨_, h⟩
    obtain ⟨name, -, hn, hnone⟩ := reachable_error h
    exact ⟨name, hn, hnone⟩
  · rintro ⟨name, hn, hnone⟩
    cases h : c.reachable with
    | error e =>
      obtain ⟨name, rfl, -⟩ := reachable_error h
      exact ⟨name, rfl⟩
    | ok names =>
      have hbound := SymbolTable.closure_bound h (List.forall_mem_nil _)
      obtain ⟨s, hs⟩ := hbound name ((mem_reachable_iff h name).2 hn)
      rw [hnone] at hs
      cases hs

end Context

end PsiCalculus
