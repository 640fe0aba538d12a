import PsiCalculus.LoopNest.Names
import PsiCalculus.Merge.Equivalence
import PsiCalculus.Merge.Reachable

/-! # Merging contexts

`Context.merge` puts two independently built contexts over one table. User names are kept, and have
to mean the same on both sides. Generated names are numbered anew, first those of the left side and
then those of the right; a name of the right side that has a partner on the left takes the
partner's new name.
-/

namespace PsiCalculus

namespace Merge

/-- New names for old ones; a name without an entry is kept. -/
abbrev Renaming := List (String × String)

/-- The new name of a name. -/
def newName (names : Renaming) (name : String) : String :=
  (names.lookup name).getD name

/-- New names for the generated ones among the entries, numbered from `id` on. Names in `partners`
take the name given there. The second component is the first number not used. -/
def renumber (partners : Renaming) : Nat → List (String × Symbol) → Renaming × Nat
  | id, [] => ([], id)
  | id, (name, symbol) :: rest =>
    if isGenerated name then
      match partners.lookup name with
      | some partner =>
        let (names, next) := renumber partners id rest
        ((name, partner) :: names, next)
      | none =>
        let (names, next) := renumber partners (id + 1) rest
        ((name, generatedName symbol.kind id) :: names, next)
    else renumber partners id rest

/-- The table with the renamed entries inserted in order. -/
def insertAll (names : Renaming) : SymbolTable → List (String × Symbol) → Except Error SymbolTable
  | table, [] => .ok table
  | table, (name, symbol) :: rest => do
    let table ← table.insert (newName names name) (symbol.mapNames (newName names))
    insertAll names table rest

/-- The entries of a table that are needed, in order. -/
def needed (table : SymbolTable) (names : List String) : List (String × Symbol) :=
  table.entries.filter fun entry => names.contains entry.1

/-- The user names that occur on both sides, in increasing order. -/
def shared (left right : List String) : List String :=
  sortedNames (left.filter fun name => right.contains name && !isGenerated name)

end Merge

open Merge in
/-- Both trees over one table. -/
def Context.merge (left right : Context) : Except Error (SymbolTable × Expr × Expr) := do
  let leftNames ← left.reachable
  let rightNames ← right.reachable
  let (_, pairs) ← (agreeNames left.table right.table (shared leftNames rightNames)).run []
  let leftEntries := needed left.table leftNames
  let (leftRenaming, id) := renumber [] 0 leftEntries
  let table ← insertAll leftRenaming .empty leftEntries
  let partners := pairs.filterMap fun (r, l) => (leftRenaming.lookup l).map fun new => (r, new)
  let rightEntries := needed right.table rightNames
  let (rightRenaming, _) := renumber partners id rightEntries
  let table ← insertAll rightRenaming table rightEntries
  let leftTree := left.tree.mapNames (newName leftRenaming)
  let rightTree := right.tree.mapNames (newName rightRenaming)
  return (table, leftTree, rightTree)

end PsiCalculus
