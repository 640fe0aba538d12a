import PsiCalculus.Context

/-! # Equivalent symbols

Two symbols of two tables agree if they match element by element. User names have to be the same on
both sides. A generated name of the right table is paired with the generated name of the left table
that it first meets, and from then on stands for it; when the pair is made their symbols have to
agree in turn. Every descent pairs a name of the right table that had no partner, so that they nest
at most as deep as the right table is long.
-/

namespace PsiCalculus.Merge

/-- Names of the right table with their partners in the left one. -/
abbrev Pairs := List (String × String)

/-- Computations that pair names up. -/
abbrev Pairing := StateT Pairs (Except Error)

/-- Whether two elements agree; `descend` compares the symbols of a new pair. -/
def agreeElement (descend : String → String → Pairing Bool) (l r : Element) : Pairing Bool :=
  match l.symbolName?, r.symbolName? with
  | some left, some right =>
    match isGenerated left, isGenerated right with
    | false, false => return left == right
    | true, true => do
      match (← get).lookup right with
      | some partner => return partner == left
      | none =>
        modify ((right, left) :: ·)
        descend left right
    | _, _ => return false
  | _, _ => return l == r

/-- Whether two lists of elements agree, from left to right up to the first that does not. -/
def agreeElements (descend : String → String → Pairing Bool) : Shape → Shape → Pairing Bool
  | [], [] => return true
  | l :: ls, r :: rs => do
    if ← agreeElement descend l r then agreeElements descend ls rs else return false
  | _, _ => return false

/-- Whether two shapes agree. Lists of different lengths do not, whatever they hold. -/
def agreeShapes (descend : String → String → Pairing Bool) :
    Option Shape → Option Shape → Pairing Bool
  | none, none => return true
  | some ls, some rs =>
    if ls.length = rs.length then agreeElements descend ls rs else return false
  | _, _ => return false

/-- Whether two symbols agree, with at most `depth` nested descents. -/
def agreeSymbols (left right : SymbolTable) : Nat → Symbol → Symbol → Pairing Bool
  | depth, l, r => do
    let descend := fun leftName rightName => match depth with
      | 0 => pure false
      | depth + 1 => do
        let l ← left.get leftName
        let r ← right.get rightName
        agreeSymbols left right depth l r
    if l.kind ≠ r.kind || l.elementType ≠ r.elementType then return false
    else if ← agreeShapes descend l.shape r.shape then agreeShapes descend l.value r.value
    else return false

/-- Pairs names up while comparing the symbols of the names both tables share; the first symbols
that do not agree are a conflict. -/
def agreeNames (left right : SymbolTable) : List String → Pairing Unit
  | [] => return ()
  | name :: rest => do
    let l ← left.get name
    let r ← right.get name
    if ← agreeSymbols left right (right.size + 1) l r then agreeNames left right rest
    else throw (.mergeConflict name l.text r.text)

end PsiCalculus.Merge
