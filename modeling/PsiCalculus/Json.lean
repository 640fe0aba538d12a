/-! # JSON values

Values as the text of a JSON document gives them: numbers by their spelling, the fields of an object
in order and with repeats. A string literal whose escapes leave a surrogate unpaired stands for no
text; it is kept as `none`.
-/

namespace PsiCalculus

/-- A JSON value. -/
inductive Json where
  | null
  | bool (value : Bool)
  /-- A number by its spelling. -/
  | number (spelling : String)
  /-- A string, or `none` for a literal that stands for no text. -/
  | string (text : Option String)
  | array (items : List Json)
  | object (fields : List (Option String × Json))
  deriving Inhabited

namespace Json

/-- A string value. -/
def str (text : String) : Json :=
  .string (some text)

/-- An integer value. -/
def int (n : Int) : Json :=
  .number (toString n)

/-- An object with the given fields. -/
def obj (fields : List (String × Json)) : Json :=
  .object (fields.map fun (key, value) => (some key, value))

/-- An array of strings. -/
def strings (texts : List String) : Json :=
  .array (texts.map str)

/-- The value of `some`, null for `none`. -/
def orNull {α : Type} (f : α → Json) : Option α → Json
  | some a => f a
  | none => .null

end Json

end PsiCalculus
