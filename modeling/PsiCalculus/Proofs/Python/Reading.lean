import PsiCalculus.Proofs.Python.Syntax
import PsiCalculus.Token.Lexer

/-!
# Reading expressions back

The text of a term says which term it is: `readWithin` takes the text apart. It reads a word and looks
at what follows it, and then goes on with the shape queries and selections that follow a term.

* `Term.Legible`: the names in the term are identifiers.
* `Continues cs`: what stands in a text after a term.
* `Recovers inner e`: the term is read before all that may follow it, and reading goes on from there.
  `recovers_within`: this holds of every legible term. The induction is on the term: one that starts
  with a smaller term is what reading the smaller one goes on with.
* `Term.text_injective`: terms with the same text are the same term.
-/

namespace PsiCalculus

/-! ## Names -/

/-- Characters of identifiers: plain letters and digits, the underscore, and all that is not plain. -/
def isNameChar (c : Char) : Bool := Token.isIdentChar c || '\x7f' < c

/-- The name is an identifier. -/
def IsIdentifier (name : String) : Prop :=
  ∃ c word, name.toList = c :: word ∧ Text.isDigit c = false ∧ ∀ d ∈ c :: word, isNameChar d = true

theorem IsIdentifier.isNameChar {name : String} (h : IsIdentifier name) :
    ∀ c ∈ name.toList, isNameChar c = true := by
  obtain ⟨c, word, hname, -, hchars⟩ := h
  rwa [hname]

namespace Python

/-! ## Legible terms -/

/-- The atom is a number or an identifier. -/
def Atom.Legible : Atom → Prop
  | .name n => IsIdentifier n
  | .number _ => True
  | .unnamed => False

def Range.Legible (r : Range) : Prop := r.start.Legible ∧ r.stop.Legible ∧ r.step.Legible

namespace Term

/-- The names in the term are identifiers, and its operators are such as stand between operands. -/
def Legible : Term → Prop
  | atom a => a.Legible
  | between symbol left right => (∃ op, between? op = some symbol) ∧ left.Legible ∧ right.Legible
  | negated e | rank e | shape e => e.Legible
  | axis e place => e.Legible ∧ place.Legible
  | item e indices | part e indices => e.Legible ∧ ∀ a ∈ indices, a.Legible
  | fold _ body index range => body.Legible ∧ IsIdentifier index ∧ range.Legible

/-- How many parentheses stand around the innermost atom. -/
def depth : Term → Nat
  | atom _ => 1
  | between _ left right => max left.depth right.depth + 1
  | negated e | rank e | part e _ | fold _ e _ _ => e.depth + 1
  | shape e | axis e _ | item e _ => e.depth

end Term

/-! ## Reading -/

/-- What follows the text at the beginning. -/
def after? (text : String) (cs : List Char) : Option (List Char) :=
  if text.toList <+: cs then some (cs.drop text.toList.length) else none

/-- What stands before the first `close`, and what after it. -/
def upTo (close : Char) (cs : List Char) : List Char × List Char :=
  (cs.takeWhile (· ≠ close), (cs.dropWhile (· ≠ close)).drop 1)

/-- Characters of identifiers and numbers. -/
def isAtomChar (c : Char) : Bool := isNameChar c || c = '-'

def readAtom : List Char → Atom
  | [] => .unnamed
  | '-' :: digits => .number (-Text.decimal digits)
  | c :: word =>
    if Text.isDigit c then .number (Text.decimal (c :: word)) else .name (String.ofList (c :: word))

/-- The atoms in a text. -/
def readAtoms (cs : List Char) : List Atom :=
  ((cs.splitOnP fun c => !isAtomChar c).filter (· ≠ [])).map readAtom

/-- A name and what follows it. -/
def readName (cs : List Char) : String × List Char :=
  (String.ofList (cs.takeWhile isNameChar), cs.dropWhile isNameChar)

/-- The range of an index, up to its closing parenthesis, and what follows it. -/
def readRange (cs : List Char) : Option (Range × List Char) :=
  match readAtoms (upTo ')' cs).1 with
  | [start, stop, step] => some (⟨start, stop, step⟩, (upTo ')' cs).2)
  | _ => none

/-- The operators that are written between their operands. -/
def betweens : List Operator :=
  [.arith .plus, .arith .minus, .arith .times, .arith .divide, .compare .equal, .compare .notEqual,
    .compare .less, .compare .lessEqual, .compare .greater, .compare .greaterEqual, .logic .and,
    .logic .or]

/-- The operator of a symbol. -/
def operatorOf? (symbol : String) : Option Operator :=
  betweens.find? fun op => between? op = some symbol

/-- The arithmetic that a function does. -/
def arithOf? (name : String) : Option ArithOp :=
  [ArithOp.plus, .minus, .times, .divide].find? fun op => operatorName op = name

/-- A term with what stands in brackets after it. -/
def withBrackets (e : Term) : List Char → Term
  | '(' :: cs => .item e (readAtoms ('(' :: cs))
  | cs => .axis e (readAtom cs)

/-- A term with the shape queries and selections after it, and what follows them. -/
def readOn (e : Term) (cs : List Char) : Term × List Char :=
  match cs with
  | '.' :: 's' :: 'h' :: 'a' :: 'p' :: 'e' :: rest => readOn (.shape e) rest
  | '[' :: rest => readOn (withBrackets e (upTo ']' rest).1) (upTo ']' rest).2
  | rest => (e, rest)
termination_by cs.length
decreasing_by
  · simp only [List.length_cons]
    omega
  · have hle := (List.dropWhile_sublist (p := (· ≠ ']')) (l := rest)).length_le
    simp only [upTo, List.length_drop, List.length_cons]
    omega

section
variable (inner : List Char → Option (Term × List Char))

/-- What follows an opening parenthesis. A word `not` is read as an operand at first. -/
def readGroup (cs : List Char) : Option (Term × List Char) := do
  let (e, cs) ← inner cs
  match cs with
  | ')' :: '[' :: cs => return (.part e (readAtoms (upTo ']' cs).1), (upTo ']' cs).2)
  | ' ' :: cs =>
    let symbol := String.ofList (upTo ' ' cs).1
    if (operatorOf? symbol).isSome then
      let (right, cs) ← inner (upTo ' ' cs).2
      return (.between symbol e right, ← after? ")" cs)
    else
      let (e, cs) ← inner cs
      return (.negated e, ← after? ")" cs)
  | _ => none

/-- What follows `len(`. -/
def readRank (cs : List Char) : Option (Term × List Char) := do
  match ← inner cs with
  | (.shape e, ')' :: cs) => return (.rank e, cs)
  | _ => none

/-- What follows `functools.reduce(operator.`. -/
def readFold (cs : List Char) : Option (Term × List Char) := do
  let (name, cs) := readName cs
  let op ← arithOf? name
  let (body, cs) ← inner (← after? ", (" cs)
  let (index, cs) := readName (← after? " for " cs)
  let (range, cs) ← readRange (← after? " in range(" cs)
  return (.fold op body index range, ← after? "))" cs)

/-- A term that starts with no smaller term. No parenthesis follows an atom. -/
def readHead (cs : List Char) : Option (Term × List Char) :=
  let word := cs.takeWhile isAtomChar
  match cs.dropWhile isAtomChar with
  | '(' :: rest => if word = [] then readGroup inner rest else readRank inner rest
  | rest =>
    match after? ".reduce(operator." rest with
    | some rest => readFold inner rest
    | none => some (.atom (readAtom word), rest)

end

/-- A term with at most `depth` parentheses around its atoms, and what follows it. -/
def readWithin : Nat → List Char → Option (Term × List Char)
  | 0, _ => none
  | depth + 1, cs => do
    let (e, rest) ← readHead (readWithin depth) cs
    return readOn e rest

/-! ## Atoms -/

theorem after?_append (text : String) (cs : List Char) : after? text (text.toList ++ cs) = some cs := by
  rw [after?, if_pos (List.prefix_append _ _), List.drop_left]

theorem upTo_append {close : Char} {cs rest : List Char} (h : ∀ c ∈ cs, c ≠ close) :
    upTo close (cs ++ close :: rest) = (cs, rest) := by
  have hcs : ∀ c ∈ cs, decide (c ≠ close) = true := fun c hc => decide_eq_true (h c hc)
  rw [upTo, List.takeWhile_append_of_pos hcs, List.dropWhile_append_of_pos hcs]
  simp

theorem isAtomChar_of_isNameChar {c : Char} (h : isNameChar c = true) : isAtomChar c = true := by
  rw [isAtomChar, h, Bool.true_or]

theorem isNameChar_of_isDigit {c : Char} (h : Text.isDigit c = true) : isNameChar c = true := by
  rw [isNameChar, Token.isIdentChar, h, Bool.or_true, Bool.true_or, Bool.true_or]

/-- The text of a number is digits, perhaps after a minus sign. -/
theorem text_number (n : Int) : ∃ digits, digits ≠ [] ∧ (∀ d ∈ digits, Text.isDigit d = true) ∧
    ((Atom.number n).text.toList = digits ∧ n = Text.decimal digits ∨
      (Atom.number n).text.toList = '-' :: digits ∧ n = -Text.decimal digits) := by
  cases n with
  | ofNat n =>
    refine ⟨Nat.toDigits 10 n, by simp, fun _ => isDigit_of_mem_toDigits, .inl ⟨?_, ?_⟩⟩
    · show (toString n).toList = _
      rw [Nat.toString_eq_repr, Nat.toList_repr]
    · rw [decimal_toDigits, Int.ofNat_eq_natCast]
  | negSucc n =>
    refine ⟨Nat.toDigits 10 (n + 1), by simp, fun _ => isDigit_of_mem_toDigits, .inr ⟨?_, ?_⟩⟩
    · show ("-" ++ (toString (n + 1))).toList = _
      rw [String.toList_append, Nat.toString_eq_repr, Nat.toList_repr]
      rfl
    · rw [decimal_toDigits, Int.negSucc_eq, Int.natCast_add, Int.natCast_one]

namespace Atom.Legible

variable {a : Atom}

theorem ne_nil (h : a.Legible) : a.text.toList ≠ [] := by
  cases a with
  | name name =>
    obtain ⟨c, word, htext, -⟩ := h
    rw [text, htext]
    exact List.cons_ne_nil _ _
  | number n =>
    obtain ⟨digits, hne, -, ⟨htext, -⟩ | ⟨htext, -⟩⟩ := text_number n
    · rwa [htext]
    · rw [htext]
      exact List.cons_ne_nil _ _
  | unnamed => exact h.elim

theorem isAtomChar (h : a.Legible) : ∀ c ∈ a.text.toList, isAtomChar c = true := by
  cases a with
  | name name =>
    obtain ⟨c, word, htext, -, hchars⟩ := h
    rw [text, htext]
    exact fun d hd => isAtomChar_of_isNameChar (hchars d hd)
  | number n =>
    obtain ⟨digits, -, hdigits, ⟨htext, -⟩ | ⟨htext, -⟩⟩ := text_number n
    · rw [htext]
      exact fun d hd => isAtomChar_of_isNameChar (isNameChar_of_isDigit (hdigits d hd))
    · rw [htext, List.forall_mem_cons]
      exact ⟨rfl, fun d hd => isAtomChar_of_isNameChar (isNameChar_of_isDigit (hdigits d hd))⟩
  | unnamed => exact h.elim

theorem readAtom (h : a.Legible) : readAtom a.text.toList = a := by
  cases a with
  | name name =>
    obtain ⟨c, word, htext, hdigit, hchars⟩ := h
    have hminus : c ≠ '-' := by
      rintro rfl
      have hname := hchars '-' (.head _)
      revert hname
      decide
    rw [text, htext, Python.readAtom.eq_3 _ _ hminus, hdigit, ← htext, String.ofList_toList]
    rfl
  | number n =>
    obtain ⟨digits, hne, hdigits, ⟨htext, hn⟩ | ⟨htext, hn⟩⟩ := text_number n
    · obtain ⟨c, digits, rfl⟩ := List.exists_cons_of_ne_nil hne
      have hc := hdigits c (.head _)
      have hminus : c ≠ '-' := by
        rintro rfl
        revert hc
        decide
      rw [htext, Python.readAtom.eq_3, if_pos hc, ← hn]
      exact hminus
    · rw [htext, Python.readAtom, ← hn]
  | unnamed => exact h.elim

end Atom.Legible

/-! ## Lists of atoms -/

/-- No atom goes on with the characters. -/
def EndsAtom (cs : List Char) : Prop := ∀ c ∈ cs.head?, isAtomChar c = false

theorem readAtoms_cons {c : Char} (hc : isAtomChar c = false) (cs : List Char) :
    readAtoms (c :: cs) = readAtoms cs := by
  have hnil : ∀ x ∈ ([] : List Char), (!isAtomChar x) = false := List.forall_mem_nil _
  have hsplit := List.splitOnP_append_cons_of_forall_mem hnil c (by rw [hc]; rfl) cs
  rw [List.nil_append] at hsplit
  rw [readAtoms, hsplit]
  rfl

theorem readAtoms_atom {a : Atom} (ha : a.Legible) {cs : List Char} (hcs : EndsAtom cs) :
    readAtoms (a.text.toList ++ cs) = a :: readAtoms cs := by
  have hword : ∀ c ∈ a.text.toList, (!isAtomChar c) = false := fun c hc => by
    rw [ha.isAtomChar c hc]
    rfl
  have hkept : ∀ words : List (List Char), (a.text.toList :: words).filter (· ≠ []) =
      a.text.toList :: words.filter (· ≠ []) :=
    fun _ => List.filter_cons_of_pos (decide_eq_true ha.ne_nil)
  cases cs with
  | nil =>
    rw [List.append_nil, readAtoms, List.splitOnP_eq_singleton hword, hkept, List.map_cons,
      ha.readAtom]
    rfl
  | cons c cs =>
    have hc := hcs c rfl
    rw [readAtoms_cons hc, readAtoms,
      List.splitOnP_append_cons_of_forall_mem hword c (by rw [hc]; rfl) cs, hkept,
      List.map_cons, ha.readAtom]
    rfl

theorem readAtoms_listed {atoms : List Atom} (h : ∀ a ∈ atoms, a.Legible) {cs : List Char}
    (hcs : EndsAtom cs) :
    readAtoms ((", ".intercalate (atoms.map Atom.text)).toList ++ cs) = atoms ++ readAtoms cs := by
  induction atoms with
  | nil => rfl
  | cons a atoms ih =>
    rw [List.forall_mem_cons] at h
    cases atoms with
    | nil => simpa using readAtoms_atom h.1 hcs
    | cons b atoms =>
      have hcomma : EndsAtom (", ".toList ++
          ((", ".intercalate (b.text :: atoms.map Atom.text)).toList ++ cs)) := by
        rintro _ ⟨⟩
        rfl
      rw [List.map_cons, List.map_cons, String.intercalate_cons_cons, String.toList_append,
        String.toList_append, List.append_assoc, List.append_assoc, readAtoms_atom h.1 hcomma]
      exact congrArg (a :: ·) (ih h.2)

theorem mem_listed {atoms : List Atom} (h : ∀ a ∈ atoms, a.Legible) {c : Char}
    (hc : c ∈ (", ".intercalate (atoms.map Atom.text)).toList) :
    c ∈ [',', ' '] ∨ isAtomChar c = true := by
  induction atoms with
  | nil => cases hc
  | cons a atoms ih =>
    rw [List.forall_mem_cons] at h
    cases atoms with
    | nil => exact .inr (h.1.isAtomChar c (by simpa using hc))
    | cons b atoms =>
      rw [List.map_cons, List.map_cons, String.intercalate_cons_cons, String.toList_append,
        String.toList_append, List.append_assoc, List.mem_append, List.mem_append] at hc
      rcases hc with hc | hc | hc
      · exact .inr (h.1.isAtomChar c hc)
      · exact .inl hc
      · exact ih h.2 hc

/-- A tuple is a list of atoms between parentheses, perhaps with a comma at its end. -/
theorem tuple_eq (items : List String) : ∃ ending, ending ∈ [[')'], [',', ')']] ∧
    (tuple items).toList = '(' :: ((", ".intercalate items).toList ++ ending) := by
  rcases items with _ | ⟨a, _ | ⟨b, items⟩⟩
  · exact ⟨[')'], by decide, rfl⟩
  · exact ⟨[',', ')'], by decide, by simp [tuple]⟩
  · exact ⟨[')'], by decide, by simp [tuple]⟩

theorem readAtoms_tuple {atoms : List Atom} (h : ∀ a ∈ atoms, a.Legible) :
    readAtoms (tuple (atoms.map Atom.text)).toList = atoms := by
  obtain ⟨ending, hending, htuple⟩ := tuple_eq (atoms.map Atom.text)
  have hread : EndsAtom ending ∧ readAtoms ending = [] := by
    simp only [List.mem_cons, List.not_mem_nil, or_false] at hending
    rcases hending with rfl | rfl
    · exact ⟨fun c hc => by cases hc; rfl, rfl⟩
    · exact ⟨fun c hc => by cases hc; rfl, rfl⟩
  rw [htuple, readAtoms_cons rfl, readAtoms_listed h hread.1, hread.2, List.append_nil]

/-! ## What follows a term -/

/-- What stands in a text after a term. -/
inductive Continues : List Char → Prop
  | nil : Continues []
  | blank (cs : List Char) : Continues (' ' :: cs)
  | close (cs : List Char) : Continues (')' :: cs)
  | shape (cs : List Char) : Continues (".shape".toList ++ cs)
  | bracket (cs : List Char) : Continues ('[' :: cs)

theorem Continues.endsAtom {cs : List Char} (h : Continues cs) : EndsAtom cs := by
  cases h with
  | nil => exact nofun
  | blank | close | shape | bracket =>
    rintro _ ⟨⟩
    rfl

theorem readOn_blank (e : Term) (cs : List Char) : readOn e (' ' :: cs) = (e, ' ' :: cs) := by
  rw [readOn]
  all_goals simp

theorem readOn_close (e : Term) (cs : List Char) : readOn e (')' :: cs) = (e, ')' :: cs) := by
  rw [readOn]
  all_goals simp

theorem readOn_nil (e : Term) : readOn e [] = (e, []) := by
  rw [readOn]
  all_goals simp

theorem readOn_shape (e : Term) (cs : List Char) :
    readOn e (".shape".toList ++ cs) = readOn (.shape e) cs := by
  show readOn e ('.' :: 's' :: 'h' :: 'a' :: 'p' :: 'e' :: cs) = _
  rw [readOn]

theorem readOn_bracket (e : Term) {inside : List Char} (h : ∀ c ∈ inside, c ≠ ']')
    (cs : List Char) : readOn e ('[' :: (inside ++ ']' :: cs)) = readOn (withBrackets e inside) cs := by
  rw [readOn, upTo_append h]

/-- The word that a text starts with is read, and then what follows it. -/
theorem takeWhile_word {word cs : List Char} {p : Char → Bool} (hword : ∀ c ∈ word, p c = true)
    (hcs : ∀ c ∈ cs.head?, p c = false) :
    (word ++ cs).takeWhile p = word ∧ (word ++ cs).dropWhile p = cs := by
  rw [List.takeWhile_append_of_pos hword, List.dropWhile_append_of_pos hword]
  cases cs with
  | nil => exact ⟨List.append_nil _, rfl⟩
  | cons c cs =>
    have hc : ¬ p c = true := Bool.not_eq_true _ ▸ hcs c rfl
    rw [List.takeWhile_cons_of_neg hc, List.dropWhile_cons_of_neg hc, List.append_nil]
    exact ⟨rfl, rfl⟩

theorem readName_append {name : String} (h : ∀ c ∈ name.toList, isNameChar c = true) {d : Char}
    (hd : isNameChar d = false) (cs : List Char) :
    readName (name.toList ++ d :: cs) = (name, d :: cs) := by
  have hend : ∀ c ∈ (d :: cs).head?, isNameChar c = false := by
    rintro _ ⟨⟩
    exact hd
  rw [readName, (takeWhile_word h hend).1, (takeWhile_word h hend).2, String.ofList_toList]

theorem readRange_append {range : Range} (h : range.Legible) (cs : List Char) :
    readRange ((", ".intercalate ([range.start, range.stop, range.step].map Atom.text)).toList ++
      ')' :: cs) = some (range, cs) := by
  have hatoms : ∀ a ∈ [range.start, range.stop, range.step], a.Legible := by
    simpa [Range.Legible] using h
  have hinside : ∀ c ∈ (", ".intercalate ([range.start, range.stop, range.step].map Atom.text)).toList,
      c ≠ ')' := by
    rintro _ hc rfl
    rcases mem_listed hatoms hc with hc | hc <;> revert hc <;> decide
  have hend : EndsAtom [] := nofun
  have hlisted := readAtoms_listed hatoms hend
  rw [List.append_nil] at hlisted
  rw [readRange, upTo_append hinside, hlisted]
  rfl

section
variable {inner : List Char → Option (Term × List Char)}

theorem readHead_atom {a : Atom} (ha : a.Legible) {cs : List Char} (hcs : Continues cs) :
    readHead inner (a.text.toList ++ cs) = some (.atom a, cs) := by
  obtain ⟨htake, hdrop⟩ := takeWhile_word ha.isAtomChar hcs.endsAtom
  rw [readHead, htake, hdrop, ha.readAtom]
  cases hcs with
  | nil | blank | close | shape | bracket => rfl

theorem readHead_group (cs : List Char) : readHead inner ('(' :: cs) = readGroup inner cs := rfl

theorem readHead_len (cs : List Char) :
    readHead inner ("len".toList ++ '(' :: cs) = readRank inner cs := rfl

theorem readHead_reduce (cs : List Char) :
    readHead inner ("functools".toList ++ (".reduce(operator.".toList ++ cs)) = readFold inner cs := by
  have hword : ∀ c ∈ "functools".toList, isAtomChar c = true := List.all_eq_true.1 rfl
  have hdot : ∀ c ∈ (".reduce(operator.".toList ++ cs).head?, isAtomChar c = false := by
    rintro _ ⟨⟩
    rfl
  obtain ⟨htake, hdrop⟩ := takeWhile_word hword hdot
  rw [readHead, htake, hdrop]
  rfl

end

/-! ## Texts as characters -/

namespace Term

theorem toList_between (symbol : String) (left right : Term) (cs : List Char) :
    (between symbol left right).text.toList ++ cs = '(' :: (left.text.toList ++
      ' ' :: (symbol.toList ++ ' ' :: (right.text.toList ++ ')' :: cs))) := by
  show ("(" ++ left.text ++ " " ++ symbol ++ " " ++ right.text ++ ")").toList ++ cs = _
  simp only [String.toList_append, List.append_assoc, String.reduceToList, List.cons_append,
    List.nil_append]

theorem toList_negated (e : Term) (cs : List Char) : (negated e).text.toList ++ cs =
    '(' :: ("not".toList ++ ' ' :: (e.text.toList ++ ')' :: cs)) := by
  show ("(not " ++ e.text ++ ")").toList ++ cs = _
  simp only [String.toList_append, List.append_assoc, String.reduceToList, List.cons_append,
    List.nil_append]

theorem toList_rank (e : Term) (cs : List Char) : (rank e).text.toList ++ cs =
    "len".toList ++ '(' :: (e.text.toList ++ (".shape".toList ++ ')' :: cs)) := by
  show ("len(" ++ e.text ++ ".shape)").toList ++ cs = _
  simp only [String.toList_append, List.append_assoc, String.reduceToList, List.cons_append,
    List.nil_append]

theorem toList_shape (e : Term) (cs : List Char) :
    (shape e).text.toList ++ cs = e.text.toList ++ (".shape".toList ++ cs) := by
  show (e.text ++ ".shape").toList ++ cs = _
  rw [String.toList_append, List.append_assoc]

theorem toList_axis (e : Term) (place : Atom) (cs : List Char) : (axis e place).text.toList ++ cs =
    e.text.toList ++ '[' :: (place.text.toList ++ ']' :: cs) := by
  show (e.text ++ "[" ++ place.text ++ "]").toList ++ cs = _
  simp only [String.toList_append, List.append_assoc, String.reduceToList, List.cons_append,
    List.nil_append]

theorem toList_item (e : Term) (indices : List Atom) (cs : List Char) :
    (item e indices).text.toList ++ cs =
      e.text.toList ++ '[' :: ((tuple (indices.map Atom.text)).toList ++ ']' :: cs) := by
  show (e.text ++ "[" ++ tuple (indices.map Atom.text) ++ "]").toList ++ cs = _
  simp only [String.toList_append, List.append_assoc, String.reduceToList, List.cons_append,
    List.nil_append]

theorem toList_part (e : Term) (indices : List Atom) (cs : List Char) :
    (part e indices).text.toList ++ cs = '(' :: (e.text.toList ++ ')' :: '[' ::
      ((tuple (indices.map Atom.text)).toList ++ ']' :: cs)) := by
  show ("(" ++ e.text ++ ")[" ++ tuple (indices.map Atom.text) ++ "]").toList ++ cs = _
  simp only [String.toList_append, List.append_assoc, String.reduceToList, List.cons_append,
    List.nil_append]

theorem toList_fold (op : ArithOp) (body : Term) (index : String) (range : Range) (cs : List Char) :
    (fold op body index range).text.toList ++ cs = "functools".toList ++ (".reduce(operator.".toList ++
      ((operatorName op).toList ++ (", (".toList ++ (body.text.toList ++ (" for ".toList ++
        (index.toList ++ (" in range(".toList ++
          ((", ".intercalate ([range.start, range.stop, range.step].map Atom.text)).toList ++
            ')' :: ("))".toList ++ cs))))))))) := by
  show ("functools.reduce(operator." ++ operatorName op ++ ", (" ++ body.text ++ " for " ++ index
    ++ " in " ++ range.text ++ "))").toList ++ cs = _
  simp only [Range.text, List.map_cons, List.map_nil, String.intercalate_cons_cons,
    String.intercalate_singleton, String.toList_append, List.append_assoc, String.reduceToList,
    List.cons_append, List.nil_append]

end Term

/-! ## Symbols -/

theorem operatorOf?_eq_some {symbol : String} {op : Operator} :
    operatorOf? symbol = some op ↔ between? op = some symbol := by
  constructor
  · intro h
    simpa using List.find?_some h
  · intro h
    cases op with
    | arith op | compare op | logic op => cases op <;> cases h <;> rfl
    | _ => cases h

/-- A symbol is one word, and has no dots, brackets or parentheses. -/
theorem symbol_chars {symbol : String} {op : Operator} (h : between? op = some symbol) :
    ∀ c ∈ symbol.toList, c ∉ [' ', '.', '[', '(', ')'] := by
  have hall : symbol.toList.all (· ∉ [' ', '.', '[', '(', ')']) = true := by
    cases op with
    | arith op | compare op | logic op => cases op <;> cases h <;> rfl
    | _ => cases h
  exact fun c hc => of_decide_eq_true (List.all_eq_true.1 hall c hc)

/-- The characters before the first blank hold a dot, a bracket or a parenthesis. -/
def HasMark (cs : List Char) : Prop := ∃ c ∈ cs.takeWhile (· ≠ ' '), c ∈ ['.', '[', '(', ')']

theorem hasMark_append {word : List Char} (hword : ' ' ∉ word) {d : Char}
    (hd : d ∈ ['.', '[', '(', ')']) (cs : List Char) : HasMark (word ++ d :: cs) := by
  have hne : d ≠ ' ' := by
    rintro rfl
    revert hd
    decide
  refine ⟨d, ?_, hd⟩
  rw [List.takeWhile_append_of_pos fun c hc => decide_eq_true (ne_of_mem_of_not_mem hc hword),
    List.takeWhile_cons_of_pos (by simpa using hne)]
  exact List.mem_append_right _ (.head _)

theorem hasMark_cons {d : Char} (hd : d ∈ ['.', '[', '(', ')']) (cs : List Char) :
    HasMark (d :: cs) :=
  hasMark_append List.not_mem_nil hd cs

theorem operatorOf?_eq_none {cs : List Char} (h : HasMark cs) :
    operatorOf? (String.ofList (upTo ' ' cs).1) = none := by
  rw [Option.eq_none_iff_forall_ne_some]
  intro op hop
  obtain ⟨c, hc, hmark⟩ := h
  have hchars := symbol_chars (operatorOf?_eq_some.1 hop) c (by rwa [String.toList_ofList])
  exact hchars (.tail _ hmark)

/-- A term has a mark before its first blank, or where it ends. -/
theorem hasMark_text {e : Term} (he : e.Legible) {d : Char} (hd : d ∈ ['.', '[', '(', ')'])
    (cs : List Char) : HasMark (e.text.toList ++ d :: cs) := by
  induction e generalizing d cs with
  | atom a =>
    exact hasMark_append (fun hc => absurd (he.isAtomChar ' ' hc) (by decide)) hd cs
  | between =>
    rw [Term.toList_between]
    exact hasMark_cons (by decide) _
  | negated =>
    rw [Term.toList_negated]
    exact hasMark_cons (by decide) _
  | part =>
    rw [Term.toList_part]
    exact hasMark_cons (by decide) _
  | rank =>
    rw [Term.toList_rank]
    exact hasMark_append (by decide) (by decide) _
  | fold =>
    rw [Term.toList_fold]
    exact hasMark_append (d := '.') (by decide) (by decide) _
  | shape e ih =>
    rw [Term.toList_shape]
    exact ih he (d := '.') (by decide) _
  | axis e _ ih =>
    rw [Term.toList_axis]
    exact ih he.1 (by decide) _
  | item e _ ih =>
    rw [Term.toList_item]
    exact ih he.1 (by decide) _

/-! ## Terms that start with no smaller term -/

section
variable {inner : List Char → Option (Term × List Char)}

/-- The term is read before all that may follow it, and reading goes on from there. -/
def Recovers (inner : List Char → Option (Term × List Char)) (e : Term) : Prop :=
  ∀ {cs : List Char}, Continues cs → inner (e.text.toList ++ cs) = some (readOn e cs)

theorem after?_close (cs : List Char) : after? ")" (')' :: cs) = some cs := after?_append ")" cs

theorem readHead_between {op : Operator} {symbol : String} (hop : between? op = some symbol)
    {left right : Term} (hl : Recovers inner left) (hr : Recovers inner right) (cs : List Char) :
    readHead inner ((Term.between symbol left right).text.toList ++ cs) =
      some (.between symbol left right, cs) := by
  have hsymbol : ∀ c ∈ symbol.toList, c ≠ ' ' := fun c hc heq =>
    symbol_chars hop c hc (heq ▸ .head _)
  rw [Term.toList_between, readHead_group, readGroup, hl (.blank _), readOn_blank]
  simp only [Option.bind_eq_bind, Option.bind_some, upTo_append hsymbol, String.ofList_toList,
    operatorOf?_eq_some.2 hop, Option.isSome_some, if_true, hr (.close cs), readOn_close,
    after?_close]
  rfl

theorem readHead_negated {e : Term} (he : e.Legible) (hnot : Recovers inner (.atom (.name "not")))
    (hread : Recovers inner e) (cs : List Char) :
    readHead inner ((Term.negated e).text.toList ++ cs) = some (.negated e, cs) := by
  have hword : inner ("not".toList ++ ' ' :: (e.text.toList ++ ')' :: cs)) =
      some (.atom (.name "not"), ' ' :: (e.text.toList ++ ')' :: cs)) :=
    (hnot (.blank _)).trans (congrArg some (readOn_blank _ _))
  have hnone := operatorOf?_eq_none (hasMark_text he (d := ')') (by decide) cs)
  rw [Term.toList_negated, readHead_group, readGroup, hword]
  simp only [Option.bind_eq_bind, Option.bind_some, hnone, Option.isSome_none, Bool.false_eq_true,
    if_false, hread (.close cs), readOn_close, after?_close]
  rfl

theorem readHead_rank {e : Term} (hread : Recovers inner e) (cs : List Char) :
    readHead inner ((Term.rank e).text.toList ++ cs) = some (.rank e, cs) := by
  rw [Term.toList_rank, readHead_len, readRank, hread (.shape _), readOn_shape, readOn_close]
  rfl

/-- The closing bracket of a selection is the first one. -/
theorem tuple_ne_bracket {atoms : List Atom} (h : ∀ a ∈ atoms, a.Legible) :
    ∀ c ∈ (tuple (atoms.map Atom.text)).toList, c ≠ ']' := by
  obtain ⟨ending, hending, htuple⟩ := tuple_eq (atoms.map Atom.text)
  have hclose : ']' ∉ ending := by
    revert hending
    clear htuple
    revert ending
    decide
  rintro c hc rfl
  rw [htuple, List.mem_cons, List.mem_append] at hc
  rcases hc with hc | hc | hc
  · cases hc
  · rcases mem_listed h hc with hc | hc
    · revert hc
      decide
    · revert hc
      decide
  · exact hclose hc

theorem readHead_part {e : Term} {indices : List Atom} (h : ∀ a ∈ indices, a.Legible)
    (hread : Recovers inner e) (cs : List Char) :
    readHead inner ((Term.part e indices).text.toList ++ cs) = some (.part e indices, cs) := by
  rw [Term.toList_part, readHead_group, readGroup, hread (.close _), readOn_close]
  simp only [Option.bind_eq_bind, Option.bind_some, upTo_append (tuple_ne_bracket h),
    readAtoms_tuple h]
  rfl

theorem arithOf?_operatorName (op : ArithOp) : arithOf? (operatorName op) = some op := by
  cases op <;> rfl

theorem readHead_fold (op : ArithOp) {body : Term} {index : String} {range : Range}
    (hindex : IsIdentifier index) (hrange : range.Legible) (hread : Recovers inner body)
    (cs : List Char) : readHead inner ((Term.fold op body index range).text.toList ++ cs) =
      some (.fold op body index range, cs) := by
  have hname : (operatorName op).toList.all isNameChar = true := by cases op <;> rfl
  have hop : ∀ {cs : List Char}, readName ((operatorName op).toList ++ (", (".toList ++ cs)) =
      (operatorName op, ", (".toList ++ cs) :=
    readName_append (List.all_eq_true.1 hname) rfl _
  have hbody : ∀ {cs : List Char}, inner (body.text.toList ++ (" for ".toList ++ cs)) =
      some (body, " for ".toList ++ cs) :=
    (hread (.blank _)).trans (congrArg some (readOn_blank _ _))
  have hbound : ∀ {cs : List Char}, readName (index.toList ++ (" in range(".toList ++ cs)) =
      (index, " in range(".toList ++ cs) :=
    readName_append hindex.isNameChar rfl _
  rw [Term.toList_fold, readHead_reduce, readFold]
  simp only [hop, arithOf?_operatorName, after?_append, hbody, hbound, readRange_append hrange,
    Option.bind_eq_bind, Option.bind_some]
  rfl

end

/-! ## Terms -/

theorem Term.depth_pos (e : Term) : 0 < e.depth := by
  induction e with
  | shape e ih | axis e _ ih | item e _ ih => exact ih
  | _ => exact Nat.succ_pos _

theorem exists_deeper {n depth : Nat} (h : n + 1 ≤ depth) : ∃ deeper, depth = deeper + 1 ∧ n ≤ deeper :=
  ⟨depth - 1, by omega, by omega⟩

theorem readWithin_succ {depth : Nat} {e : Term} {cs : List Char}
    (h : readHead (readWithin depth) (e.text.toList ++ cs) = some (e, cs)) :
    readWithin (depth + 1) (e.text.toList ++ cs) = some (readOn e cs) := by
  rw [readWithin, h]
  rfl

theorem withBrackets_atom (e : Term) {place : Atom} (h : place.Legible) :
    withBrackets e place.text.toList = .axis e place := by
  have hparen : ∀ cs, place.text.toList ≠ '(' :: cs := by
    intro cs heq
    have hchar := h.isAtomChar '(' (heq ▸ .head _)
    revert hchar
    decide
  rw [withBrackets.eq_2 _ _ hparen, h.readAtom]

theorem withBrackets_tuple (e : Term) {indices : List Atom} (h : ∀ a ∈ indices, a.Legible) :
    withBrackets e (tuple (indices.map Atom.text)).toList = .item e indices := by
  obtain ⟨ending, -, htuple⟩ := tuple_eq (indices.map Atom.text)
  rw [htuple, withBrackets, ← htuple, readAtoms_tuple h]

/-- **A term is read where it stands**, and reading goes on from there. -/
theorem recovers_within {e : Term} (he : e.Legible) {depth : Nat} (hdepth : e.depth ≤ depth) :
    Recovers (readWithin depth) e := by
  induction e generalizing depth with
  | shape e ih =>
    intro cs _
    rw [Term.toList_shape, ih he hdepth (.shape _), readOn_shape]
  | axis e place ih =>
    intro cs _
    have hplace : ∀ c ∈ place.text.toList, c ≠ ']' := by
      rintro _ hc rfl
      exact absurd (he.2.isAtomChar _ hc) (by decide)
    rw [Term.toList_axis, ih he.1 hdepth (.bracket _), readOn_bracket _ hplace, withBrackets_atom _ he.2]
  | item e indices ih =>
    intro cs _
    rw [Term.toList_item, ih he.1 hdepth (.bracket _), readOn_bracket _ (tuple_ne_bracket he.2),
      withBrackets_tuple _ he.2]
  | atom a =>
    intro cs hcs
    obtain _ | depth := depth
    · cases hdepth
    exact readWithin_succ (readHead_atom he hcs)
  | between symbol left right ihl ihr =>
    intro cs _
    obtain ⟨⟨op, hop⟩, hl, hr⟩ := he
    obtain ⟨depth, rfl, hle⟩ := exists_deeper hdepth
    exact readWithin_succ (readHead_between hop (ihl hl (Nat.le_trans (Nat.le_max_left _ _) hle))
      (ihr hr (Nat.le_trans (Nat.le_max_right _ _) hle)) cs)
  | negated e ih =>
    intro cs _
    obtain ⟨depth, rfl, hle⟩ := exists_deeper hdepth
    obtain ⟨deeper, rfl, -⟩ := exists_deeper (Nat.le_trans e.depth_pos hle)
    have hnot : (Atom.name "not").Legible := ⟨'n', ['o', 't'], rfl, rfl, List.all_eq_true.1 rfl⟩
    exact readWithin_succ (readHead_negated (e := e) he
      (fun hcs => readWithin_succ (readHead_atom hnot hcs)) (ih he hle) cs)
  | rank e ih =>
    intro cs _
    obtain ⟨depth, rfl, hle⟩ := exists_deeper hdepth
    exact readWithin_succ (readHead_rank (ih he hle) cs)
  | part e indices ih =>
    intro cs _
    obtain ⟨depth, rfl, hle⟩ := exists_deeper hdepth
    exact readWithin_succ (readHead_part he.2 (ih he.1 hle) cs)
  | fold op body index range ih =>
    intro cs _
    obtain ⟨hbody, hindex, hrange⟩ := he
    obtain ⟨depth, rfl, hle⟩ := exists_deeper hdepth
    exact readWithin_succ (readHead_fold op hindex hrange (ih hbody hle) cs)

/-- **Terms with the same text are the same term.** -/
theorem Term.text_injective {e e' : Term} (he : e.Legible) (he' : e'.Legible) (h : e.text = e'.text) :
    e = e' := by
  have hread := recovers_within he (Nat.le_max_left e.depth e'.depth) .nil
  have hread' := recovers_within he' (Nat.le_max_right e.depth e'.depth) .nil
  rw [h, hread', readOn_nil, readOn_nil] at hread
  cases hread
  rfl

end Python

end PsiCalculus
