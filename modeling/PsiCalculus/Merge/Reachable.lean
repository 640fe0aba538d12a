import PsiCalculus.Context
import PsiCalculus.Expr.Names

/-! # Reachable names

The names a context needs: those its tree mentions, and those the symbols of needed names depend on.
Symbols may depend on each other in circles. Every step either shortens the list of names to look at
or visits a symbol of the table for the first time.
-/

namespace PsiCalculus

namespace SymbolTable

/-- The number of symbols whose names are not among the visited ones. -/
def unvisited (t : SymbolTable) (visited : List String) : Nat :=
  t.entries.countP fun entry => !visited.contains entry.1

theorem mem_entries_of_lookup {name : String} {symbol : Symbol} :
    ∀ {entries : List (String × Symbol)}, entries.lookup name = some symbol →
      (name, symbol) ∈ entries
  | [], h => by simp at h
  | (key, first) :: rest, h => by
    rw [List.lookup_cons] at h
    split at h
    · next heq =>
      obtain rfl : name = key := by simpa using heq
      obtain rfl : first = symbol := by simpa using h
      exact List.mem_cons_self
    · exact List.mem_cons_of_mem _ (mem_entries_of_lookup h)

/-- Visiting a symbol for the first time leaves fewer symbols to visit. -/
theorem unvisited_cons_lt {t : SymbolTable} {name : String} {symbol : Symbol}
    {visited : List String} (hget : t.get? name = some symbol) (hnew : ¬ name ∈ visited) :
    t.unvisited (name :: visited) < t.unvisited visited := by
  have hmem := mem_entries_of_lookup hget
  unfold unvisited
  generalize t.entries = entries at hmem
  induction entries with
  | nil => simp at hmem
  | cons entry rest ih =>
    have hle : rest.countP (fun e => !(name :: visited).contains e.1) ≤
        rest.countP (fun e => !visited.contains e.1) := by
      apply List.countP_mono_left
      intro e _ he
      simp only [List.contains_cons, Bool.not_or, Bool.and_eq_true] at he
      exact he.2
    rcases List.mem_cons.1 hmem with rfl | hmem
    · have hout : visited.contains name = false := by simpa using hnew
      simp only [List.countP_cons, List.contains_cons, beq_self_eq_true, Bool.true_or, hout]
      simp
      simp only [List.contains_cons] at hle
      simpa using Nat.lt_succ_of_le hle
    · have hlt := ih hmem
      simp only [List.countP_cons]
      have hone : (if (!(name :: visited).contains entry.1) = true then 1 else 0) ≤
          (if (!visited.contains entry.1) = true then 1 else 0) := by
        simp only [List.contains_cons]
        cases (entry.1 == name) <;> simp
      omega

/-- The names visited once `pending` is worked off, the first of it first. -/
def closure (t : SymbolTable) (pending visited : List String) : Except Error (List String) :=
  match pending with
  | [] => .ok visited
  | name :: rest =>
    if _ : name ∈ visited then closure t rest visited
    else match _ : t.get? name with
      | none => .error (.unknownSymbol name)
      | some symbol => closure t (symbol.dependencies.reverse ++ rest) (name :: visited)
termination_by (t.unvisited visited, pending.length)
decreasing_by
  · exact Prod.Lex.right _ (by simp)
  · exact Prod.Lex.left _ _ (unvisited_cons_lt (by assumption) (by assumption))

end SymbolTable

/-- The names a context needs; it is an error if one of them has no symbol. -/
def Context.reachable (c : Context) : Except Error (List String) :=
  c.table.closure c.tree.names.reverse []

end PsiCalculus
