import PsiCalculus.LoopNest
import PsiCalculus.Python
import PsiCalculus.Proofs.Growth

/-!
# The syntax behind the text

The text of a function is that of a small language: expressions (`Term`), statements (`Statement`) and
functions (`Function`), each with its own text. In this form it can be said which names a text
mentions and where a name is bound.

* `Writes p e term`, `Emits p e s`, `Renders literals c fn`: what an expression, a statement and a
  lowered context are written as. They are written as one thing only (`Renders.unique`), and the text
  is that of this thing (`Writes.expression_eq`, `Emits.statement_eq`, `Renders.program_eq`).
* `exists_writes`: an expression that has a text is written as a term.
* `Term.names`, `Statement.names`: the names that have to be bound where the text stands. The index of
  a reduction is bound in its body only, that of a loop in the statement inside.
* `Closed scope statements`: each statement mentions names of the scope and names that earlier
  statements bind. `Function.ClosedOver scope fn`: so does the whole function, its parameters bound.
-/

namespace PsiCalculus

namespace Python

/-! ## Expressions -/

/-- What an element is written as. -/
inductive Atom
  | name (name : String)
  | number (n : Int)
  | unnamed
  deriving DecidableEq

/-- The range of an index. -/
structure Range where
  start : Atom
  stop : Atom
  step : Atom
  deriving DecidableEq

/-- What an expression is written as. -/
inductive Term
  | atom (a : Atom)
  | between (symbol : String) (left right : Term)
  | negated (e : Term)
  | rank (e : Term)
  | shape (e : Term)
  | axis (e : Term) (place : Atom)
  | item (e : Term) (indices : List Atom)
  | part (e : Term) (indices : List Atom)
  | fold (op : ArithOp) (body : Term) (index : String) (range : Range)
  deriving DecidableEq

namespace Atom

def text : Atom → String
  | name n => n
  | number n => toString n
  | unnamed => "?"

def names : Atom → List String
  | name n => [n]
  | number _ | unnamed => []

end Atom

namespace Range

def text (r : Range) : String :=
  "range(" ++ r.start.text ++ ", " ++ r.stop.text ++ ", " ++ r.step.text ++ ")"

def names (r : Range) : List String :=
  "range" :: (r.start.names ++ r.stop.names ++ r.step.names)

end Range

namespace Term

def text : Term → String
  | atom a => a.text
  | between symbol left right => "(" ++ left.text ++ " " ++ symbol ++ " " ++ right.text ++ ")"
  | negated e => "(not " ++ e.text ++ ")"
  | rank e => "len(" ++ e.text ++ ".shape)"
  | shape e => e.text ++ ".shape"
  | axis e place => e.text ++ "[" ++ place.text ++ "]"
  | item e indices => e.text ++ "[" ++ tuple (indices.map Atom.text) ++ "]"
  | part e indices => "(" ++ e.text ++ ")[" ++ tuple (indices.map Atom.text) ++ "]"
  | fold op body index range =>
    "functools.reduce(operator." ++ operatorName op ++ ", (" ++ body.text ++ " for " ++ index ++ " in "
      ++ range.text ++ "))"

/-- The names that have to be bound where the expression stands. -/
def names : Term → List String
  | atom a => a.names
  | between _ left right => left.names ++ right.names
  | negated e | shape e => e.names
  | rank e => "len" :: e.names
  | axis e place => e.names ++ place.names
  | item e indices | part e indices => e.names ++ indices.flatMap Atom.names
  | fold _ body index range =>
    "functools" :: "operator" :: (range.names ++ body.names.filter (· ≠ index))

/-- An indexed operand. -/
def select (op : Operator) (e : Term) : List Atom → Term
  | [] => e
  | [place] =>
    match op with
    | .shape => axis e place
    | .array => item e [place]
    | _ => part e [place]
  | indices =>
    match op with
    | .array => item e indices
    | _ => part e indices

theorem text_select (op : Operator) (e : Term) (indices : List Atom) :
    (select op e indices).text = selection op e.text (indices.map Atom.text) := by
  cases indices with
  | nil => rfl
  | cons first rest =>
    cases rest with
    | nil => cases op <;> rfl
    | cons second rest => cases op <;> rfl

theorem names_select (op : Operator) (e : Term) (indices : List Atom) :
    (select op e indices).names = e.names ++ indices.flatMap Atom.names := by
  cases indices with
  | nil => exact (List.append_nil _).symm
  | cons first rest =>
    cases rest with
    | nil => cases op <;> simp [select, names]
    | cons second rest => cases op <;> rfl

end Term

section
variable (p : Python)

/-- What an element is written as, scalars of known value followed for at most `steps` steps. -/
def atomWithin : Nat → Element → Atom
  | _, .int n => .number n
  | steps, .symbolic node =>
    match node.name? with
    | none => .unnamed
    | some name =>
      match steps, p.scalarValue? name with
      | steps + 1, some value => atomWithin steps value
      | _, _ => .name name

/-- What an element is written as. -/
def atom (x : Element) : Atom := p.atomWithin (p.table.size + 1) x

/-- What the range of an index is written as. -/
def rangeOf (start stop step : Element) : Range := ⟨p.atom start, p.atom stop, p.atom step⟩

end

variable {p : Python}

theorem text_atomWithin (steps : Nat) (x : Element) :
    (p.atomWithin steps x).text = p.elementWithin steps x := by
  fun_induction atomWithin p steps x with
  | case1 => rw [elementWithin]; rfl
  | case2 steps node hname => rw [elementWithin, hname]; rfl
  | case3 node name hname steps value hvalue ih =>
    rw [elementWithin, hname]
    dsimp only
    rw [hvalue]
    exact ih
  | case4 steps node name hname hend =>
    rw [elementWithin, hname]
    dsimp only
    split
    · next steps' value hvalue => exact absurd hvalue (hend steps' value rfl)
    · rfl

theorem text_atom (x : Element) : (p.atom x).text = p.element x := text_atomWithin _ x

theorem text_atoms (xs : Shape) : (xs.map p.atom).map Atom.text = xs.map p.element := by
  simp [text_atom]

theorem text_rangeOf (start stop step : Element) :
    (p.rangeOf start stop step).text = p.range start stop step := by
  simp [Range.text, rangeOf, range, text_atom]

/-- The operators that are written between their operands. -/
def between? : Operator → Option String
  | .arith op => some op.symbol
  | .compare op => some op.symbol
  | .logic op => some op.symbol
  | _ => none

/-- What an expression is written as. Operands that an operator has no use for are not looked at. -/
inductive Writes (p : Python) : Expr → Term → Prop
  | array {s : Option Shape} {name : String} {children : List Expr} :
      Writes p (.node .array s (.name name) children) (.atom (p.atom (.named name)))
  | psi {s : Option Shape} {payload : Payload} {v X : Expr} {rest : List Expr} {name : String}
      {symbol : Symbol} {values : Shape} {term : Term} : v.arrayName? = some name →
      p.table.get? name = some symbol → symbol.value = some values → Writes p X term →
      Writes p (.node .psi s payload (v :: X :: rest)) (.select X.op term (values.map p.atom))
  | between {op : Operator} {symbol : String} {s : Option Shape} {payload : Payload} {l r : Expr}
      {rest : List Expr} {left right : Term} : between? op = some symbol → Writes p l left →
      Writes p r right →
      Writes p (.node op s payload (l :: r :: rest)) (.between symbol left right)
  | not {s : Option Shape} {payload : Payload} {e : Expr} {rest : List Expr} {term : Term} :
      Writes p e term → Writes p (.node .not s payload (e :: rest)) (.negated term)
  | dim {s : Option Shape} {payload : Payload} {e : Expr} {rest : List Expr} {term : Term} :
      Writes p e term → Writes p (.node .dim s payload (e :: rest)) (.rank term)
  | shape {s : Option Shape} {payload : Payload} {e : Expr} {rest : List Expr} {term : Term} :
      Writes p e term → Writes p (.node .shape s payload (e :: rest)) (.shape term)
  | fold {op : ArithOp} {s : Option Shape} {k : String} {body : Expr} {rest : List Expr}
      {symbol : Symbol} {start stop step : Element} {term : Term} : p.table.get? k = some symbol →
      symbol.value = some [start, stop, step] → Writes p body term →
      Writes p (.node (.reduce op) s (.name k) (body :: rest))
        (.fold op term k (p.rangeOf start stop step))

theorem expression_psi {s : Option Shape} {payload : Payload} {v X : Expr} {rest : List Expr} :
    p.expression (.node .psi s payload (v :: X :: rest)) = (do
      let indices ← p.indexTexts v
      let text ← p.expression X
      return selection X.op text indices) := rfl

theorem expression_fold {op : ArithOp} {s : Option Shape} {k : String} {body : Expr}
    {rest : List Expr} : p.expression (.node (.reduce op) s (.name k) (body :: rest)) = (do
      let range ← p.boundRange k
      let text ← p.expression body
      return "functools.reduce(operator." ++ operatorName op ++ ", (" ++ text ++ " for " ++ k
        ++ " in " ++ range ++ "))") := rfl

theorem expression_between {op : Operator} {symbol : String} (hop : between? op = some symbol)
    {s : Option Shape} {payload : Payload} {l r : Expr} {rest : List Expr} :
    p.expression (.node op s payload (l :: r :: rest)) = (do
      let left ← p.expression l
      let right ← p.expression r
      return "(" ++ left ++ " " ++ symbol ++ " " ++ right ++ ")") := by
  cases op with
  | arith op => cases hop; rfl
  | compare op => cases hop; rfl
  | logic op => cases hop; rfl
  | _ => cases hop

theorem expression_array {s : Option Shape} {name : String} {children : List Expr} :
    p.expression (.node .array s (.name name) children) = .ok (p.element (.named name)) := rfl

theorem expression_not {s : Option Shape} {payload : Payload} {e : Expr} {rest : List Expr} :
    p.expression (.node .not s payload (e :: rest)) = (do
      let text ← p.expression e
      return "(not " ++ text ++ ")") := rfl

theorem expression_dim {s : Option Shape} {payload : Payload} {e : Expr} {rest : List Expr} :
    p.expression (.node .dim s payload (e :: rest)) = (do
      let text ← p.expression e
      return "len(" ++ text ++ ".shape)") := rfl

theorem expression_shape {s : Option Shape} {payload : Payload} {e : Expr} {rest : List Expr} :
    p.expression (.node .shape s payload (e :: rest)) = (do
      let text ← p.expression e
      return text ++ ".shape") := rfl

theorem indexTexts_ok {v : Expr} {texts : List String} : p.indexTexts v = .ok texts ↔
    ∃ name symbol values, v.arrayName? = some name ∧ p.table.get? name = some symbol ∧
      symbol.value = some values ∧ values.map p.element = texts := by
  unfold indexTexts
  cases v.arrayName? with
  | none => simp [fault]
  | some name =>
    simp only [except_bind_ok, SymbolTable.get_ok]
    constructor
    · rintro ⟨symbol, hget, h⟩
      cases hvalue : symbol.value with
      | none => rw [hvalue] at h; cases h
      | some values =>
        rw [hvalue] at h
        exact ⟨name, symbol, values, rfl, hget, hvalue, Except.ok.inj h⟩
    · rintro ⟨_, symbol, values, hname, hget, hvalue, rfl⟩
      cases hname
      exact ⟨symbol, hget, by rw [hvalue]; rfl⟩

theorem boundRange_ok {k : String} {text : String} : p.boundRange k = .ok text ↔
    ∃ symbol start stop step, p.table.get? k = some symbol ∧
      symbol.value = some [start, stop, step] ∧ p.range start stop step = text := by
  unfold boundRange
  simp only [except_bind_ok, SymbolTable.get_ok]
  constructor
  · rintro ⟨symbol, hget, h⟩
    split at h
    · next start stop step hvalue => exact ⟨symbol, start, stop, step, hget, hvalue, Except.ok.inj h⟩
    · cases h
  · rintro ⟨symbol, start, stop, step, hget, hvalue, rfl⟩
    exact ⟨symbol, hget, by rw [hvalue]; rfl⟩

/-- What an expression is written as has its text. -/
theorem Writes.expression_eq {e : Expr} {term : Term} (h : Writes p e term) :
    p.expression e = .ok term.text := by
  induction h with
  | array => exact expression_array.trans (congrArg Except.ok (text_atom _).symm)
  | psi hname hget hvalue _ ih =>
    rw [expression_psi, indexTexts_ok.2 ⟨_, _, _, hname, hget, hvalue, rfl⟩, ih, Term.text_select,
      text_atoms]
    rfl
  | between hop _ _ ihl ihr =>
    rw [expression_between hop, ihl, ihr]
    rfl
  | not _ ih =>
    rw [expression_not, ih]
    rfl
  | dim _ ih =>
    rw [expression_dim, ih]
    rfl
  | shape _ ih =>
    rw [expression_shape, ih]
    rfl
  | fold hget hvalue _ ih =>
    rw [expression_fold, boundRange_ok.2 ⟨_, _, _, _, hget, hvalue, rfl⟩, ih, ← text_rangeOf]
    rfl

/-- An expression is written as one term only. -/
theorem Writes.unique {e : Expr} {term term' : Term} (h : Writes p e term) (h' : Writes p e term') :
    term = term' := by
  induction h generalizing term' with
  | array =>
    cases h' with
    | array => rfl
    | between hop => cases hop
  | psi hname hget hvalue _ ih =>
    cases h' with
    | psi hname' hget' hvalue' hX =>
      cases hname.symm.trans hname'
      cases hget.symm.trans hget'
      cases hvalue.symm.trans hvalue'
      rw [ih hX]
    | between hop => cases hop
  | between hop _ _ ihl ihr =>
    cases h' with
    | between hop' hl hr =>
      cases hop.symm.trans hop'
      rw [ihl hl, ihr hr]
    | array | psi | not | dim | shape | fold => cases hop
  | not _ ih =>
    cases h' with
    | not he => rw [ih he]
    | between hop => cases hop
  | dim _ ih =>
    cases h' with
    | dim he => rw [ih he]
    | between hop => cases hop
  | shape _ ih =>
    cases h' with
    | shape he => rw [ih he]
    | between hop => cases hop
  | fold hget hvalue _ ih =>
    cases h' with
    | fold hget' hvalue' hbody =>
      cases hget.symm.trans hget'
      cases hvalue.symm.trans hvalue'
      rw [ih hbody]
    | between hop => cases hop

theorem operand_ok {α : Type} {op : Operator} {operands : List α} {index : Nat} {a : α} :
    operand op operands index = .ok a ↔ operands[index]? = some a := by
  unfold operand
  split <;> simp_all [fault]

theorem expressions_eq : ∀ es : List Expr, p.expressions es = es.map p.expression
  | [] => rfl
  | e :: es => by rw [expressions, expressions_eq es, List.map_cons]

/-- The first operand is there if its text is. -/
theorem first_ok {op : Operator} {es : List Expr} {x : Except Error String} {text : String}
    (hx : operand op (p.expressions es) 0 = .ok x) (h : x = .ok text) :
    ∃ e rest, es = e :: rest ∧ p.expression e = .ok text := by
  rw [operand_ok, expressions_eq] at hx
  cases es with
  | nil => cases hx
  | cons e rest =>
    cases hx
    exact ⟨e, rest, rfl, h⟩

/-- The first two operands are there if their texts are. -/
theorem second_ok {op : Operator} {es : List Expr} {x : Except Error String} {text : String}
    (hx : operand op (p.expressions es) 1 = .ok x) (h : x = .ok text) :
    ∃ l r rest, es = l :: r :: rest ∧ p.expression r = .ok text := by
  rw [operand_ok, expressions_eq] at hx
  cases es with
  | nil => cases hx
  | cons l rest =>
    cases rest with
    | nil => cases hx
    | cons r rest =>
      cases hx
      exact ⟨l, r, rest, rfl, h⟩

theorem binaryText_ok {op : Operator} {symbol text : String} {es : List Expr}
    (h : binaryText op symbol (p.expressions es) = .ok text) :
    ∃ l r rest left right, es = l :: r :: rest ∧ p.expression l = .ok left ∧
      p.expression r = .ok right := by
  obtain ⟨x, hx, h⟩ := except_bind_ok.1 h
  obtain ⟨left, hleft, h⟩ := except_bind_ok.1 h
  obtain ⟨y, hy, h⟩ := except_bind_ok.1 h
  obtain ⟨right, hright, -⟩ := except_bind_ok.1 h
  obtain ⟨l, r, rest, rfl, hr⟩ := second_ok hy hright
  obtain ⟨_, _, heq, hl⟩ := first_ok hx hleft
  cases heq
  exact ⟨l, r, rest, left, right, rfl, hl, hr⟩

/-- **Every text of an expression is that of a term.** -/
theorem exists_writes {e : Expr} {text : String} (h : p.expression e = .ok text) :
    ∃ term, Writes p e term := by
  induction e using Expr.induction_on_children generalizing text with
  | node op shape payload children ih =>
    have hbetween : ∀ {symbol text}, between? op = some symbol →
        binaryText op symbol (p.expressions children) = .ok text →
        ∃ term, Writes p (.node op shape payload children) term := by
      intro symbol text hop h
      obtain ⟨l, r, rest, left, right, rfl, hl, hr⟩ := binaryText_ok h
      obtain ⟨tl, htl⟩ := ih l (.head _) hl
      obtain ⟨tr, htr⟩ := ih r (.tail _ (.head _)) hr
      exact ⟨_, .between hop htl htr⟩
    have hfirst : ∀ {f : String → Except Error String} {text},
        (operand op (p.expressions children) 0 >>= fun x => x >>= f) = .ok text →
        ∃ e rest term, children = e :: rest ∧ Writes p e term := by
      intro f text h
      obtain ⟨x, hx, h⟩ := except_bind_ok.1 h
      obtain ⟨text', htext', -⟩ := except_bind_ok.1 h
      obtain ⟨e, rest, rfl, htext⟩ := first_ok hx htext'
      obtain ⟨term, hterm⟩ := ih e (.head _) htext
      exact ⟨e, rest, term, rfl, hterm⟩
    rw [expression] at h
    unfold combine at h
    split at h
    · split at h
      · exact ⟨_, .array⟩
      · cases h
    · obtain ⟨v, hv, h⟩ := except_bind_ok.1 h
      obtain ⟨texts, htexts, h⟩ := except_bind_ok.1 h
      obtain ⟨X, hX, h⟩ := except_bind_ok.1 h
      obtain ⟨x, hx, h⟩ := except_bind_ok.1 h
      obtain ⟨text', htext', -⟩ := except_bind_ok.1 h
      obtain ⟨_, _, rest, rfl, htext⟩ := second_ok hx htext'
      cases operand_ok.1 hv
      cases operand_ok.1 hX
      obtain ⟨name, symbol, values, hname, hget, hvalue, -⟩ := indexTexts_ok.1 htexts
      obtain ⟨term, hterm⟩ := ih _ (.tail _ (.head _)) htext
      exact ⟨_, .psi hname hget hvalue hterm⟩
    · exact hbetween rfl h
    · exact hbetween rfl h
    · exact hbetween rfl h
    · obtain ⟨e, rest, term, rfl, hterm⟩ := hfirst h
      exact ⟨_, .not hterm⟩
    · obtain ⟨e, rest, term, rfl, hterm⟩ := hfirst h
      exact ⟨_, .dim hterm⟩
    · obtain ⟨e, rest, term, rfl, hterm⟩ := hfirst h
      exact ⟨_, .shape hterm⟩
    · split at h
      · obtain ⟨range, hrange, h⟩ := except_bind_ok.1 h
        obtain ⟨e, rest, term, rfl, hterm⟩ := hfirst h
        obtain ⟨symbol, start, stop, step, hget, hvalue, -⟩ := boundRange_ok.1 hrange
        exact ⟨_, .fold hget hvalue hterm⟩
      · cases h
    · cases h

/-! ## Statements -/

/-- What a statement is written as. -/
inductive Statement
  | check (condition : Term) (message : String)
  | assign (target value : Term)
  | allocate (name : String) (shape : List Atom)
  | loop (index : String) (range : Range) (body : Statement)
  deriving DecidableEq

namespace Statement

def lines : Nat → Statement → List String
  | depth, check condition message =>
    [line depth ("if " ++ ("not " ++ condition.text) ++ ":"),
      line (depth + 1) ("raise Exception(" ++ Text.quote message ++ ")")]
  | depth, assign target value => [line depth (target.text ++ " = " ++ value.text)]
  | depth, allocate name shape =>
    [line depth (name ++ " = numpy.zeros(" ++ tuple (shape.map Atom.text) ++ ")")]
  | depth, loop index range body =>
    line depth ("for " ++ index ++ " in " ++ range.text ++ ":") :: body.lines (depth + 1)

/-- The names that have to be bound before the statement. -/
def names : Statement → List String
  | check condition _ => "Exception" :: condition.names
  | assign (.atom _) value => value.names
  | assign target value => target.names ++ value.names
  | allocate _ shape => "numpy" :: shape.flatMap Atom.names
  | loop index range body => range.names ++ body.names.filter (· ≠ index)

/-- The names that are bound after the statement. -/
def binds : Statement → List String
  | assign (.atom (.name name)) _ => [name]
  | allocate name _ => [name]
  | _ => []

end Statement

theorem Statement.value_names {target value : Term} : value.names ⊆ (assign target value).names := by
  cases target with
  | atom => exact fun _ => id
  | _ => exact List.subset_append_right _ _

theorem Statement.names_assign {target value : Term} :
    (assign target value).names ⊆ target.names ++ value.names := by
  cases target with
  | atom => exact List.subset_append_right _ _
  | _ => exact fun _ => id

/-- Each statement mentions names of the scope and names that statements before it bind. -/
def Closed : List String → List Statement → Prop
  | _, [] => True
  | scope, s :: rest => (∀ name ∈ s.names, name ∈ scope) ∧ Closed (scope ++ s.binds) rest

instance decidableClosed : ∀ (scope : List String) (ss : List Statement), Decidable (Closed scope ss)
  | _, [] => .isTrue trivial
  | scope, s :: rest =>
    have := decidableClosed (scope ++ s.binds) rest
    inferInstanceAs (Decidable (_ ∧ _))

theorem closed_append : ∀ {scope : List String} {ss rest : List Statement},
    Closed scope (ss ++ rest) ↔
      Closed scope ss ∧ Closed (scope ++ ss.flatMap Statement.binds) rest
  | _, [], _ => by simp [Closed]
  | _, _ :: _, _ => by
    rw [List.cons_append, Closed, Closed, closed_append, List.flatMap_cons, List.append_assoc,
      and_assoc]

theorem closed_of_forall : ∀ {scope : List String} {ss : List Statement},
    (∀ s ∈ ss, ∀ name ∈ s.names, name ∈ scope) → Closed scope ss
  | _, [], _ => trivial
  | _, s :: _, h => ⟨h s (.head _), closed_of_forall fun s' hs' name hn =>
      List.mem_append_left _ (h s' (.tail _ hs') name hn)⟩

/-- What a statement is written as. -/
inductive Emits (p : Python) : Expr → Statement → Prop
  | check {condition : Expr} {term : Term} (kind : GuardKind) : Writes p condition term →
      Emits p (LoopNest.guard kind condition) (.check term (LoopNest.guardMessage kind))
  | assign {s : Option Shape} {payload : Payload} {l r : Expr} {rest : List Expr}
      {target value : Term} : Writes p l target → Writes p r value →
      Emits p (.node .assign s payload (l :: r :: rest)) (.assign target value)
  | allocate (shape : Shape) (name : String) :
      Emits p (.node .allocate (some shape) (.name name) []) (.allocate name (shape.map p.atom))
  | loop {s : Option Shape} {index : String} {start stop step : Element} {body : Expr}
      {inner : Statement} : Emits p body inner →
      Emits p (.node .loop s (.loop index start stop step) [body])
        (.loop index (p.rangeOf start stop step) inner)

theorem statement_assign {depth : Nat} {s : Option Shape} {payload : Payload} {l r : Expr}
    {rest : List Expr} : p.statement depth (.node .assign s payload (l :: r :: rest)) = (do
      let target ← p.expression l
      let value ← p.expression r
      return [line depth (target ++ " = " ++ value)]) := rfl

theorem statement_guard {depth : Nat} {kind : GuardKind} {condition : Expr} :
    p.statement depth (LoopNest.guard kind condition) = (do
      let test ← (do
        let text ← p.expression condition
        return "not " ++ text)
      return [line depth ("if " ++ test ++ ":"),
        line (depth + 1) ("raise Exception(" ++ Text.quote (LoopNest.guardMessage kind) ++ ")")]) := rfl

theorem statement_loop {depth : Nat} {s : Option Shape} {index : String} {start stop step : Element}
    {children : List Expr} :
    p.statement depth (.node .loop s (.loop index start stop step) children) = (do
      let bodies ← (p.statements (depth + 1) children).mapM id
      return line depth ("for " ++ index ++ " in " ++ p.range start stop step ++ ":")
        :: bodies.flatten) := rfl

theorem statement_block {depth : Nat} {s : Option Shape} {payload : Payload} {children : List Expr} :
    p.statement depth (.node .block s payload children) = (do
      let bodies ← (p.statements depth children).mapM id
      return bodies.flatten) := rfl

/-- What a statement is written as has its lines, at every depth. -/
theorem Emits.statement_eq {e : Expr} {s : Statement} (h : Emits p e s) :
    ∀ depth, p.statement depth e = .ok (s.lines depth) := by
  induction h with
  | check kind hterm =>
    intro depth
    rw [statement_guard, hterm.expression_eq]
    rfl
  | assign hl hr =>
    intro depth
    rw [statement_assign, hl.expression_eq, hr.expression_eq]
    rfl
  | allocate =>
    intro depth
    rw [Statement.lines, text_atoms]
    rfl
  | loop _ ih =>
    intro depth
    rw [statement_loop, statements, ih, Statement.lines, text_rangeOf]
    simp [statements, pure, Except.pure, bind, Except.bind]

theorem Emits.unique {e : Expr} {s s' : Statement} (h : Emits p e s) (h' : Emits p e s') : s = s' := by
  induction h generalizing s' with
  | check kind hterm =>
    generalize hguard : LoopNest.guard kind _ = g at h'
    cases h' with
    | check kind' hterm' =>
      cases hguard
      rw [hterm.unique hterm']
    | assign | allocate | loop => cases hguard
  | assign hl hr =>
    cases h' with
    | assign hl' hr' => rw [hl.unique hl', hr.unique hr']
  | allocate =>
    cases h' with
    | allocate => rfl
  | loop _ ih =>
    cases h' with
    | loop hbody => rw [ih hbody]

/-- Every text of an assignment is that of two terms. -/
theorem exists_emits_assign {depth : Nat} {e : Expr} {lines : List String} (hop : e.op = .assign)
    (h : p.statement depth e = .ok lines) : ∃ target value, Emits p e (.assign target value) := by
  obtain ⟨op, s, payload, children⟩ := e
  cases hop
  obtain ⟨l, hl, h⟩ := except_bind_ok.1 h
  obtain ⟨target, htarget, h⟩ := except_bind_ok.1 h
  obtain ⟨r, hr, h⟩ := except_bind_ok.1 h
  obtain ⟨value, hvalue, -⟩ := except_bind_ok.1 h
  obtain ⟨left, hleft⟩ := exists_writes htarget
  obtain ⟨right, hright⟩ := exists_writes hvalue
  match children, operand_ok.1 hl, operand_ok.1 hr with
  | _ :: _ :: _, rfl, rfl => exact ⟨left, right, .assign hleft hright⟩

theorem statements_eq {depth : Nat} : ∀ es : List Expr,
    p.statements depth es = es.map (p.statement depth)
  | [] => rfl
  | e :: es => by rw [statements, statements_eq es, List.map_cons]

theorem statements_emit {depth : Nat} {es : List Expr} {ss : List Statement}
    (h : List.Forall₂ (Emits p) es ss) :
    (p.statements depth es).mapM id = .ok (ss.map (Statement.lines depth)) := by
  induction h with
  | nil => rfl
  | cons he _ ih =>
    rw [statements, List.mapM_cons, he.statement_eq, ih]
    rfl

/-! ## Functions -/

/-- The parameters of a function, its body and the name that it returns. -/
structure Function where
  parameters : List String
  body : List Statement
  result : String
  deriving DecidableEq

/-- The module of a function. -/
def Function.text (f : Function) (name : String) : String :=
  let lines := imports ++ ["def " ++ name ++ "(" ++ ", ".intercalate f.parameters ++ "):"]
    ++ f.body.flatMap (Statement.lines 1) ++ [line 1 ("return " ++ f.result)]
  "\n".intercalate lines ++ "\n"

/-- Every name is bound where it is mentioned: in the scope, as a parameter, by an earlier statement, or
as the index of a loop or a reduction around it. -/
def Function.ClosedOver (scope : List String) (f : Function) : Prop :=
  Closed (scope ++ f.parameters) f.body ∧
    f.result ∈ scope ++ f.parameters ++ f.body.flatMap Statement.binds

instance (scope : List String) (f : Function) : Decidable (f.ClosedOver scope) :=
  inferInstanceAs (Decidable (_ ∧ _))

/-- The index of a loop is bound inside the loop, and not by the statements after it. -/
example :
    let body : Statement := .assign (.item (.atom (.name "A")) [.name "i"]) (.atom (.name "i"))
    let loop : Statement := .loop "i" ⟨.number 0, .number 2, .number 1⟩ body
    Function.ClosedOver ["range"] ⟨["A"], [loop], "A"⟩ ∧
      ¬ Function.ClosedOver ["range"] ⟨["A"], [loop, body], "A"⟩ := by
  decide

/-- What a lowered context is written as. -/
inductive Renders (literals : Bool) (c : Context) : Function → Prop
  | intro {s : Option Shape} {parameters : List String} {result : String} {es : List Expr}
      {ss : List Statement} :
      c.tree = .node .function s (.function parameters result) [.node .block none .none es] →
      List.Forall₂ (Emits ⟨c.table, literals⟩) es ss → Renders literals c ⟨parameters, ss, result⟩

/-- **The text of a context is that of the function that it is written as.** -/
theorem Renders.program_eq {literals : Bool} {c : Context} {fn : Function}
    (h : Renders literals c fn) (name : String) : program name literals c = .ok (fn.text name) := by
  cases h with
  | @intro _ parameters result es ss htree hes =>
    let p : Python := ⟨c.table, literals⟩
    have hblock : p.statement 1 (.node .block none .none es) =
        .ok (ss.flatMap (Statement.lines 1)) := by
      rw [statement_block, statements_emit hes]
      simp [pure, Except.pure, bind, Except.bind, List.flatMap]
    have hbody : (p.statements 1 [.node .block none .none es]).mapM id =
        .ok [ss.flatMap (Statement.lines 1)] := by
      rw [statements, hblock]
      rfl
    rw [program, htree]
    refine except_bind_ok.2 ⟨_, hbody, ?_⟩
    simp [Function.text, pure, Except.pure]

/-- A context is written as one function only. -/
theorem Renders.unique {literals : Bool} {c : Context} {fn fn' : Function}
    (h : Renders literals c fn) (h' : Renders literals c fn') : fn = fn' := by
  cases h with
  | intro htree hes =>
    cases h' with
    | intro htree' hes' =>
      cases htree.symm.trans htree'
      have hunique : Relator.RightUnique (Emits ⟨c.table, literals⟩) := fun _ _ _ h h' => h.unique h'
      rw [hunique.forall₂ hes hes']

theorem statements_ok {depth : Nat} {es : List Expr} {bodies : List (List String)}
    (h : (p.statements depth es).mapM id = .ok bodies) {e : Expr} (he : e ∈ es) :
    ∃ lines, p.statement depth e = .ok lines := by
  rw [statements_eq] at h
  obtain ⟨lines, -, hlines⟩ := exists_of_mem_right (except_mapM_ok h).flip (List.mem_map_of_mem he)
  exact ⟨lines, hlines⟩

/-- The statements of a function that has a text have lines. -/
theorem statement_of_program {c : Context} {s : Option Shape} {parameters : List String}
    {result name text : String} {es : List Expr} {literals : Bool}
    (htree : c.tree = .node .function s (.function parameters result) [.node .block none .none es])
    (h : program name literals c = .ok text) {e : Expr} (he : e ∈ es) :
    ∃ lines, statement ⟨c.table, literals⟩ 1 e = .ok lines := by
  rw [program, htree] at h
  obtain ⟨bodies, hbodies, -⟩ := except_bind_ok.1 h
  obtain ⟨lines, hlines⟩ := statements_ok hbodies (.head _)
  rw [statement_block] at hlines
  obtain ⟨inner, hinner, -⟩ := except_bind_ok.1 hlines
  exact statements_ok hinner he

end Python

end PsiCalculus
