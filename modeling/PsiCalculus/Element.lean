import PsiCalculus.Expr

/-! # Elements of shapes and values

Reading and writing lists of elements: which integers they hold, which names they mention, and the
text they are listed as, `<3 n 4>`.
-/

namespace PsiCalculus

namespace Element

/-- The element that stands for the run-time scalar `name`. -/
def named (name : String) : Element :=
  .symbolic (.array name (some []))

/-- The integer of a concrete element. -/
def int? : Element → Option Int
  | .int n => some n
  | .symbolic _ => none

/-- The name a symbolic element stands for, if its node has one. -/
def symbolName? : Element → Option String
  | .int _ => none
  | .symbolic node => node.name?

/-- Whether the element is known only at run time. -/
def isSymbolic : Element → Bool
  | .int _ => false
  | .symbolic _ => true

/-- The text of an element; a symbolic element without a name is `?`. -/
def text : Element → String
  | .int n => toString n
  | .symbolic node => node.name?.getD "?"

end Element

namespace Shape

/-- The shape of integer lengths. -/
def ofInts (lengths : List Int) : Shape :=
  lengths.map .int

/-- Whether some element is known only at run time. -/
def isSymbolic (elements : Shape) : Bool :=
  elements.any Element.isSymbolic

/-- The elements as integers, if none is symbolic. -/
def ints? (elements : Shape) : Option (List Int) :=
  elements.mapM Element.int?

/-- The names that symbolic elements stand for, in order, repeats kept. -/
def names (elements : Shape) : List String :=
  elements.filterMap Element.symbolName?

/-- The elements between angles. -/
def text (elements : Shape) : String :=
  "<" ++ " ".intercalate (elements.map Element.text) ++ ">"

/-- The text of a shape that may be unknown. -/
def textOf : Option Shape → String
  | some shape => text shape
  | none => "unknown"

end Shape

end PsiCalculus
