import PsiCalculus.Error
import PsiCalculus.Text.Decimal

/-! # Symbol tables

What is known about the names an expression mentions: a symbol per name, in the order of insertion.
User names do not start with an underscore. Generated names are `_a0`, `_a1`, .. for arrays and
`_i0`, `_i1`, .. for indices; the table remembers in its counter a bound on the numbers in use, so
that a fresh number is free on both sides.

* `SymbolTable.get?` is the view of a table: the symbol of a name.
* `SymbolTable.insert` adds a symbol, does nothing for a symbol that is there already, and fails for
  a name that is bound to another symbol.
* `SymbolTable.freshId` is a number that no generated name of the table carries.
-/

namespace PsiCalculus

/-- What a name stands for. -/
inductive SymbolKind where
  | array
  | index
  deriving DecidableEq, Repr

/-- What is known about a name. The value of an index is the range it runs over. -/
structure Symbol where
  kind : SymbolKind
  shape : Option Shape
  /-- A tag for the type of the elements. -/
  elementType : Option String
  value : Option Shape
  deriving DecidableEq

namespace SymbolKind

/-- The word for a kind. -/
def text : SymbolKind → String
  | array => "array"
  | index => "index"

/-- What generated names of a kind start with. -/
def stem : SymbolKind → String
  | array => "_a"
  | index => "_i"

end SymbolKind

namespace Symbol

/-- An array with the shape and value that are known of it. -/
def array (shape value : Option Shape) : Symbol :=
  ⟨.array, shape, none, value⟩

/-- An index that runs from zero up to but not including `bound`. -/
def index (bound : Element) : Symbol :=
  ⟨.index, some [], none, some [.int 0, bound, .int 1]⟩

/-- The names a symbol mentions in its shape, then in its value, repeats kept. -/
def dependencies (s : Symbol) : List String :=
  Shape.names (s.shape.getD []) ++ Shape.names (s.value.getD [])

/-- The text of a symbol. -/
def text (s : Symbol) : String :=
  s.kind.text ++ " shape=" ++ Shape.textOf s.shape ++
    match s.value with
    | some value => " value=" ++ Shape.text value
    | none => ""

end Symbol

/-! ## Generated names -/

/-- Whether the name is no user's. -/
def isGenerated (name : String) : Bool :=
  name.toList.head? = some '_'

/-- The number of a generated name. -/
def generatedId? (name : String) : Option Nat :=
  match name.toList with
  | '_' :: 'a' :: digits | '_' :: 'i' :: digits => Text.word? digits
  | _ => none

/-- The generated name of a kind with a number. -/
def generatedName (kind : SymbolKind) (id : Nat) : String :=
  kind.stem ++ toString id

/-! ## Tables -/

/-- Symbols by name, in the order of insertion. -/
structure SymbolTable where
  entries : List (String × Symbol) := []
  /-- Exceeds the number of every generated name that was inserted. -/
  counter : Nat := 0
  deriving DecidableEq

namespace SymbolTable

/-- The table without symbols. -/
def empty : SymbolTable := {}

/-- The number of symbols. -/
def size (t : SymbolTable) : Nat :=
  t.entries.length

/-- The names in the order of insertion. -/
def names (t : SymbolTable) : List String :=
  t.entries.map Prod.fst

/-- The symbol of a name. -/
def get? (t : SymbolTable) (name : String) : Option Symbol :=
  t.entries.lookup name

/-- Whether the name has a symbol. -/
def contains (t : SymbolTable) (name : String) : Bool :=
  (t.get? name).isSome

/-- The symbol of a name that has to have one. -/
def get (t : SymbolTable) (name : String) : Except Error Symbol :=
  match t.get? name with
  | some symbol => .ok symbol
  | none => .error (.unknownSymbol name)

/-- The counter once `name` is in use; there is none if no word follows the number of the name. -/
def counterAfter (t : SymbolTable) (name : String) : Except Error Nat :=
  match generatedId? name with
  | none => .ok t.counter
  | some id => if id < Text.maxWord then .ok (max t.counter (id + 1)) else .error (.exhausted name)

/-- Binds `name` to `symbol`. Binding it to the same symbol again changes nothing; binding it to
another one is an error. -/
def insert (t : SymbolTable) (name : String) (symbol : Symbol) : Except Error SymbolTable :=
  match t.get? name with
  | some existing =>
    if existing = symbol then .ok t else .error (.conflict name existing.text symbol.text)
  | none => do
    let counter ← t.counterAfter name
    return { entries := t.entries ++ [(name, symbol)], counter }

@[simp] theorem get?_empty (name : String) : empty.get? name = none := rfl

/-- Binding a name to the symbol it has changes nothing. -/
theorem insert_of_get?_eq_some {t : SymbolTable} {name : String} {symbol : Symbol}
    (h : t.get? name = some symbol) : t.insert name symbol = .ok t := by
  simp [insert, h]

/-- A table after an insertion is the one before, or has the new symbol at its end. -/
theorem entries_of_insert {t t' : SymbolTable} {name : String} {symbol : Symbol}
    (h : t.insert name symbol = .ok t') :
    (t.get? name = some symbol ∧ t' = t) ∨
      (t.get? name = none ∧ t'.entries = t.entries ++ [(name, symbol)]) := by
  unfold insert at h
  split at h
  · next existing hget =>
    split at h
    · next heq =>
      subst heq
      exact .inl ⟨hget, (Except.ok.inj h).symm⟩
    · cases h
  · next hget =>
    cases hcounter : t.counterAfter name with
    | error e => rw [hcounter] at h; cases h
    | ok counter =>
      rw [hcounter] at h
      obtain rfl := (Except.ok.inj h).symm
      exact .inr ⟨hget, rfl⟩

/-- A name at the end of a table is found there only if it is not found before. -/
theorem lookup_append_singleton (entries : List (String × Symbol)) (key name : String)
    (symbol : Symbol) : (entries ++ [(key, symbol)]).lookup name =
      (entries.lookup name).or (if name = key then some symbol else none) := by
  rw [List.lookup_append, List.lookup_cons]
  by_cases h : name = key
  · simp [h]
  · simp [h, beq_eq_false_iff_ne.2 h]

/-- After an insertion the name has the symbol. -/
theorem get?_insert_self {t t' : SymbolTable} {name : String} {symbol : Symbol}
    (h : t.insert name symbol = .ok t') : t'.get? name = some symbol := by
  rcases entries_of_insert h with ⟨hget, rfl⟩ | ⟨hget, hentries⟩
  · exact hget
  · rw [get?] at hget ⊢
    simp [hentries, lookup_append_singleton, hget]

/-- An insertion leaves the symbols of other names as they are. -/
theorem get?_insert_of_ne {t t' : SymbolTable} {name other : String} {symbol : Symbol}
    (h : t.insert name symbol = .ok t') (hne : other ≠ name) : t'.get? other = t.get? other := by
  rcases entries_of_insert h with ⟨_, rfl⟩ | ⟨_, hentries⟩
  · rfl
  · simp [get?, hentries, lookup_append_singleton, hne]

/-- Whether no generated name of the table carries the number. -/
def isFree (t : SymbolTable) (id : Nat) : Bool :=
  !t.contains (generatedName .array id) && !t.contains (generatedName .index id)

/-- The first free number from the counter and the size of the table on. Of any `size + 1` numbers
one is free. -/
def freshId (t : SymbolTable) : Nat :=
  let start := max t.counter t.size
  ((List.range' start (t.size + 1)).find? t.isFree).getD (start + t.size + 1)

/-- A generated name of the kind that is not in the table. -/
def freshName (t : SymbolTable) (kind : SymbolKind) : String :=
  generatedName kind t.freshId

/-- One line per symbol: its name and its text. -/
def lines (t : SymbolTable) : List String :=
  t.entries.map fun (name, symbol) => name ++ ": " ++ symbol.text

end SymbolTable

/-! ## Growing a table -/

/-- Computations that may enter symbols into a table. -/
abbrev Grow := StateT SymbolTable (Except Error)

namespace Grow

/-- Binds a fresh name of the symbol's kind to the symbol. -/
def fresh (symbol : Symbol) : Grow String := do
  let table ← get
  let name := table.freshName symbol.kind
  set (← table.insert name symbol)
  return name

/-- The leaf of a fresh array. -/
def array (shape value : Option Shape) : Grow Expr :=
  return .array (← fresh (.array shape value)) shape

/-- The leaf of a fresh vector that holds `values`. -/
def vector (values : Shape) : Grow Expr :=
  array (some [.int values.length]) (some values)

/-- The leaf of a fresh scalar that holds `value`. -/
def scalar (value : Element) : Grow Expr :=
  array (some []) (some [value])

/-- A fresh index below `bound`. -/
def index (bound : Element) : Grow String :=
  fresh (.index bound)

/-- The symbol of a name. -/
def symbol (name : String) : Grow Symbol := do
  (← get).get name

end Grow

end PsiCalculus
