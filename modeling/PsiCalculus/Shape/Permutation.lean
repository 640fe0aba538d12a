import PsiCalculus.Element

/-! # Permuted axes

A list of integers moves the axes of a shape: axis `j` goes to the place that entry `j` names.
`Shape.place?` does so if the entries are a permutation of the places; `Shape.arrange?` reads the
places back, which is how an index over the moved axes becomes an index over the axes.
-/

namespace PsiCalculus.Shape

variable {α : Type}

/-- Puts `a` into the empty slot that `target` names. -/
def fill? (slots : List (Option α)) (target : Int) (a : α) : Option (List (Option α)) :=
  if target < 0 then none
  else match slots[target.toNat]? with
    | some none => some (slots.set target.toNat (some a))
    | _ => none

/-- Puts each item into the empty slot that its target names. -/
def fillAll? : List (Option α) → List (Int × α) → Option (List (Option α))
  | slots, [] => some slots
  | slots, (target, a) :: rest => do
    let slots ← fill? slots target a
    fillAll? slots rest

/-- The items with item `j` moved to place `targets[j]`, if the targets name every place once. -/
def place? (targets : List Int) (items : List α) : Option (List α) := do
  let slots ← fillAll? (List.replicate items.length none) (targets.zip items)
  return slots.filterMap id

/-- The item that the integer `p` counts to. -/
def at? (items : List α) (p : Int) : Option α :=
  if p < 0 then none else items[p.toNat]?

/-- The list whose entry `j` is the item that `places[j]` counts to. -/
def arrange? (places : Shape) (items : List α) : Option (List α) :=
  places.mapM fun p => p.int?.bind (at? items)

end PsiCalculus.Shape
