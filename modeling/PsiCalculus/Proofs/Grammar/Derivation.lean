import PsiCalculus.Element
import PsiCalculus.Token

/-!
# Derivations

The grammar of expressions as a relation. Chains of binary operators are left associative and have
four levels:

    expr    ::= struct | expr ":=" struct
    struct  ::= add | struct sop add       sop: psi, take, drop, cat, tran, "." op, op "." op
    add     ::= mul | add ("+" | "-") mul
    mul     ::= unary | mul ("*" | "/") unary
    unary   ::= leading expr | primary
    primary ::= "(" expr ")" | vector | ident | ident "^" vector
    vector  ::= "<" (integer | ident)* ">"

It is ambiguous, since a leading operator takes a whole expression but stands in the tightest place:
`tran A + B` is the transpose of a sum, or a sum. `Derives extent X u rest p` says that the tokens
`u`, which stand before the tokens `rest`, are the phrase `p` of category `X`, and that the operand of
every leading operator and what follows it satisfy `extent`. So `Derivable` is the language of the
grammar, and `Derives Farthest` picks the derivations in which every such operand goes as far to the
right as it can.

* `Derivable.join`: two expressions around a binary operator are an expression.
* `Derivable.closing`: what is derivable at all has a derivation in which operands of leading
  operators end where a parenthesis closes, or at the end (`Closing`).
* `derives_farthest_iff`: those are the derivations that go as far as they can.
-/

namespace PsiCalculus

/-- An expression as it is written, parentheses apart. -/
inductive Phrase where
  | name (name : String)
  | declared (name : String) (shape : Shape)
  | vector (values : Shape)
  | unary (op : Operator) (operand : Phrase)
  | binary (op : Operator) (left right : Phrase)

namespace Grammar

/-! ## The grammar -/

/-- The categories of the grammar, from loosest to tightest. -/
inductive Category where
  | expr
  | struct
  | add
  | mul
  | unary
  | primary
  deriving DecidableEq

/-- A category whose phrases may be one phrase of the next tighter category. -/
inductive Holds : Category → Category → Prop
  | expr : Holds .expr .struct
  | struct : Holds .struct .add
  | add : Holds .add .mul
  | mul : Holds .mul .unary
  | unary : Holds .unary .primary

/-- The binary operators of a category, as they are written. -/
inductive Joins : Category → List Token → Operator → Prop
  | assign : Joins .expr [.assign] .assign
  | psi : Joins .struct [.psi] .psi
  | take : Joins .struct [.take] .take
  | drop : Joins .struct [.drop] .drop
  | cat : Joins .struct [.cat] .cat
  | permute : Joins .struct [.tran] .permute
  | outer (op : ArithOp) : Joins .struct [.dot, .arith op] (.outer op)
  | inner (fold combine : ArithOp) :
      Joins .struct [.arith fold, .dot, .arith combine] (.inner fold combine)
  | plus : Joins .add [.arith .plus] (.arith .plus)
  | minus : Joins .add [.arith .minus] (.arith .minus)
  | times : Joins .mul [.arith .times] (.arith .times)
  | divide : Joins .mul [.arith .divide] (.arith .divide)

/-- The operators that are written before their operand. -/
inductive Leads : Token → Operator → Prop
  | transpose : Leads .tran .transpose
  | shape : Leads .shp .shape
  | dim : Leads .dim .dim
  | iota : Leads .iota .iota
  | tau : Leads .tau .tau
  | rav : Leads .rav .rav
  | reduce (op : ArithOp) : Leads (.reduction op) (.reduce op)

/-- The elements of a vector, as they are written. -/
inductive Elements : List Token → Shape → Prop
  | nil : Elements [] []
  | integer (n : Nat) {u : List Token} {values : Shape} : Elements u values →
      Elements (.integer n :: u) (.int n :: values)
  | name (n : String) {u : List Token} {values : Shape} : Elements u values →
      Elements (.ident n :: u) (.named n :: values)

/-- The tokens `u` before the tokens `rest` are a phrase, the operands of whose leading operators have
the given extent. -/
inductive Derives (extent : List Token → List Token → Prop) :
    Category → List Token → List Token → Phrase → Prop
  | lift {X Y : Category} {u rest : List Token} {p : Phrase} : Holds X Y →
      Derives extent Y u rest p → Derives extent X u rest p
  | join {X Y : Category} {u o v rest : List Token} {op : Operator} {l r : Phrase} : Holds X Y →
      Joins X o op → Derives extent X u (o ++ (v ++ rest)) l → Derives extent Y v rest r →
      Derives extent X (u ++ (o ++ v)) rest (.binary op l r)
  | leading {t : Token} {op : Operator} {u rest : List Token} {p : Phrase} : Leads t op →
      Derives extent .expr u rest p → extent u rest →
      Derives extent .unary (t :: u) rest (.unary op p)
  | paren {u rest : List Token} {p : Phrase} : Derives extent .expr u (.rightParen :: rest) p →
      Derives extent .primary (.leftParen :: (u ++ [.rightParen])) rest p
  | vector {u rest : List Token} {values : Shape} : Elements u values →
      Derives extent .primary (.leftAngle :: (u ++ [.rightAngle])) rest (.vector values)
  | name (n : String) {rest : List Token} : Derives extent .primary [.ident n] rest (.name n)
  | declared (n : String) {u rest : List Token} {shape : Shape} : Elements u shape →
      Derives extent .primary (.ident n :: .caret :: .leftAngle :: (u ++ [.rightAngle])) rest
        (.declared n shape)

/-- The tokens are an expression of the grammar. -/
def Derivable (u : List Token) : Prop := ∃ p, Derives (fun _ _ => True) .expr u [] p

/-- No expression that starts with the tokens `u` and goes on in `rest` is longer than `u`. -/
def Farthest (u rest : List Token) : Prop :=
  ∀ u' rest', u ++ rest = u' ++ rest' → Derivable u' → u'.length ≤ u.length

/-- A parenthesis closes here, or the tokens end. -/
def Closing (rest : List Token) : Prop := rest = [] ∨ rest.head? = some .rightParen

variable {extent extent' : List Token → List Token → Prop} {X Y Z : Category}
  {u v o rest : List Token} {op : Operator} {p q : Phrase}

/-! ## Categories -/

/-- Looser categories come first. -/
def Category.rank : Category → Nat
  | expr => 0
  | struct => 1
  | add => 2
  | mul => 3
  | unary => 4
  | primary => 5

theorem Holds.rank_eq (h : Holds X Y) : Y.rank = X.rank + 1 := by
  cases h <;> rfl

theorem Joins.rank_le (h : Joins X o op) : X.rank ≤ 3 := by
  cases h <;> decide

theorem Joins.length_pos (h : Joins X o op) : 0 < o.length := by
  cases h <;> exact Nat.succ_pos _

/-- A category above the tightest one has a next tighter one. -/
theorem exists_holds (h : X.rank < 5) : ∃ Y, Holds X Y := by
  cases X with
  | expr => exact ⟨_, .expr⟩
  | struct => exact ⟨_, .struct⟩
  | add => exact ⟨_, .add⟩
  | mul => exact ⟨_, .mul⟩
  | unary => exact ⟨_, .unary⟩
  | primary => exact absurd h (by decide)

theorem Category.rank_inj (h : X.rank = Y.rank) : X = Y := by
  cases X <;> cases Y <;> first | rfl | cases h

/-- A phrase of a category is one of every looser category. -/
theorem Derives.loosen (h : Derives extent X u rest p) (hle : Y.rank ≤ X.rank) :
    Derives extent Y u rest p := by
  obtain ⟨n, hn⟩ := Nat.exists_eq_add_of_le hle
  clear hle
  induction n generalizing Y with
  | zero => rwa [← Category.rank_inj hn]
  | succ n ih =>
    obtain ⟨Z, hZ⟩ := exists_holds (X := Y) (by
      have : X.rank ≤ 5 := by cases X <;> decide
      omega)
    exact .lift hZ (ih (by rw [hZ.rank_eq]; omega))

theorem Derives.expr (h : Derives extent X u rest p) : Derives extent .expr u rest p :=
  h.loosen (Nat.zero_le _)

/-- A larger extent admits more derivations. -/
theorem Derives.imp (h : Derives extent X u rest p)
    (himp : ∀ {u rest p}, Derives extent .expr u rest p → extent u rest → extent' u rest) :
    Derives extent' X u rest p := by
  induction h with
  | lift hX _ ih => exact .lift hX ih
  | join hX hop _ _ ihl ihr => exact .join hX hop ihl ihr
  | leading ht hu hext ih => exact .leading ht ih (himp hu hext)
  | paren _ ih => exact .paren ih
  | vector he => exact .vector he
  | name n => exact .name n
  | declared n he => exact .declared n he

/-- Without a condition on the extent it does not matter what follows. -/
theorem Derives.any_rest (h : Derives extent X u rest p) (rest' : List Token) :
    Derives (fun _ _ => True) X u rest' p := by
  induction h generalizing rest' with
  | lift hX _ ih => exact .lift hX (ih _)
  | join hX hop _ _ ihl ihr => exact .join hX hop (ihl _) (ihr _)
  | leading ht _ _ ih => exact .leading ht (ih _) trivial
  | paren _ ih => exact .paren (ih _)
  | vector he => exact .vector he
  | name n => exact .name n
  | declared n he => exact .declared n he

theorem Derives.derivable (h : Derives extent X u rest p) : Derivable u :=
  ⟨p, (h.any_rest []).expr⟩

/-! ## Expressions around a binary operator -/

/-- A primary, an operator and a phrase are a phrase, of the category of the operator or, if that is
looser, of the phrase. -/
theorem Derives.prepend (hv : Derives extent X v rest q)
    (hu : ∀ rest, ∃ p, Derives extent .primary u rest p) (hop : Joins Z o op) :
    (Z.rank < X.rank → ∃ p, Derives extent Z (u ++ (o ++ v)) rest p) ∧
    (X.rank ≤ Z.rank → ∃ p, Derives extent X (u ++ (o ++ v)) rest p) := by
  have hbase : ∀ {X v rest q}, Derives extent X v rest q → Z.rank < X.rank →
      ∃ p, Derives extent Z (u ++ (o ++ v)) rest p := by
    intro X v rest q hv hlt
    obtain ⟨Y, hY⟩ := exists_holds (X := Z) (by have := hop.rank_le; omega)
    obtain ⟨p, hp⟩ := hu (o ++ (v ++ rest))
    have hle := hop.rank_le
    refine ⟨_, .join hY hop (hp.loosen ?_) (hv.loosen ?_)⟩
    · show Z.rank ≤ 5
      omega
    · rw [hY.rank_eq]
      exact hlt
  refine ⟨hbase hv, ?_⟩
  -- the operator binds at least as tightly as the phrase: it joins the leftmost part of the phrase
  induction hv with
  | @lift X Y v rest q hX hv ih =>
    intro hle
    rcases Nat.lt_or_ge Z.rank Y.rank with hlt | hge
    · obtain ⟨p, hp⟩ := hbase hv hlt
      exact ⟨p, hp.loosen hle⟩
    · obtain ⟨p, hp⟩ := ih hge
      exact ⟨p, .lift hX hp⟩
  | @join X Y v o' w rest op' l r hX hop' hl hr ihl _ =>
    intro hle
    obtain ⟨p, hp⟩ := ihl hle
    have hjoin := Derives.join hX hop' hp hr
    rw [List.append_assoc, List.append_assoc] at hjoin
    exact ⟨_, hjoin⟩
  | leading => exact fun hle => absurd (Nat.le_trans hle hop.rank_le) (by decide)
  | paren | vector | name | declared =>
    exact fun hle => absurd (Nat.le_trans hle hop.rank_le) (by decide)

/-- The tokens are an expression wherever a parenthesis closes, with operands of leading operators that
end there too. -/
def Closable (u : List Token) : Prop :=
  ∀ rest, Closing rest → ∃ p, Derives (fun _ => Closing) .expr u rest p

theorem Closable.prepend (hu : ∀ rest, ∃ p, Derives (fun _ => Closing) .primary u rest p)
    (hop : Joins Z o op) (hv : Closable v) : Closable (u ++ (o ++ v)) := by
  intro rest hrest
  obtain ⟨q, hq⟩ := hv rest hrest
  exact (hq.prepend hu hop).2 (Nat.zero_le _)

theorem Closable.leading {t : Token} (ht : Leads t op) (hu : Closable u) : Closable (t :: u) := by
  intro rest hrest
  obtain ⟨p, hp⟩ := hu rest hrest
  exact ⟨_, (Derives.leading ht hp hrest).expr⟩

theorem closing_rightParen (rest : List Token) : Closing (.rightParen :: rest) := .inr rfl

/-- By induction on a derivation the tokens are an expression, and so they are with an operator and an
expression after them: whatever follows the operand of a leading operator is taken into it. -/
theorem Derives.closable (h : Derives extent X u rest p) :
    Closable u ∧ ∀ {Z o op v}, Joins Z o op → Closable v → Closable (u ++ (o ++ v)) := by
  have hprimary : ∀ {u}, (∀ rest, ∃ p, Derives (fun _ => Closing) .primary u rest p) →
      Closable u ∧ ∀ {Z o op v}, Joins Z o op → Closable v → Closable (u ++ (o ++ v)) := by
    intro u hu
    refine ⟨fun rest _ => ?_, fun hop hv => .prepend hu hop hv⟩
    obtain ⟨p, hp⟩ := hu rest
    exact ⟨p, hp.expr⟩
  induction h with
  | lift _ _ ih => exact ih
  | join _ hop _ _ ihl ihr =>
    refine ⟨ihl.2 hop ihr.1, fun hop' hv => ?_⟩
    have := ihl.2 hop (ihr.2 hop' hv)
    rwa [List.append_assoc, List.append_assoc]
  | leading ht _ _ ih => exact ⟨ih.1.leading ht, fun hop hv => (ih.2 hop hv).leading ht⟩
  | paren _ ih =>
    refine hprimary fun rest => ?_
    obtain ⟨p, hp⟩ := ih.1 (.rightParen :: rest) (closing_rightParen rest)
    exact ⟨p, .paren hp⟩
  | vector he => exact hprimary fun _ => ⟨_, .vector he⟩
  | name n => exact hprimary fun _ => ⟨_, .name n⟩
  | declared n he => exact hprimary fun _ => ⟨_, .declared n he⟩

theorem Derivable.closing (h : Derivable u) : ∃ p, Derives (fun _ => Closing) .expr u [] p := by
  obtain ⟨p, hp⟩ := h
  exact hp.closable.1 [] (.inl rfl)

theorem Derivable.join (hu : Derivable u) (hop : Joins Z o op) (hv : Derivable v) :
    Derivable (u ++ (o ++ v)) := by
  obtain ⟨p, hp⟩ := hu
  obtain ⟨q, hq⟩ := hv
  obtain ⟨r, hr⟩ := hp.closable.2 hop hq.closable.1 [] (.inl rfl)
  exact hr.derivable

/-! ## Operands that go as far as they can -/

/-- The number of parentheses that are open after the tokens, if none closes that is not open. -/
def openAfter : Nat → List Token → Option Nat
  | depth, [] => some depth
  | depth, .leftParen :: rest => openAfter (depth + 1) rest
  | 0, .rightParen :: _ => none
  | depth + 1, .rightParen :: rest => openAfter depth rest
  | depth, _ :: rest => openAfter depth rest

theorem openAfter_other {t : Token} (hl : t ≠ .leftParen) (hr : t ≠ .rightParen) (depth : Nat)
    (rest : List Token) : openAfter depth (t :: rest) = openAfter depth rest := by
  cases depth <;> cases t <;> first | rfl | contradiction

theorem openAfter_append (u v : List Token) (depth : Nat) :
    openAfter depth (u ++ v) = (openAfter depth u).bind (openAfter · v) := by
  fun_induction openAfter depth u with
  | case1 => rfl
  | case2 depth rest ih => exact ih
  | case3 => rfl
  | case4 depth rest ih => exact ih
  | case5 depth t rest hl hr hs ih =>
    have hne : t ≠ .rightParen := by
      rintro rfl
      cases depth with
      | zero => exact hr rfl rfl
      | succ depth => exact hs depth rfl rfl
    rw [List.cons_append, openAfter_other hl hne, ih]

theorem Joins.openAfter_eq (h : Joins X o op) (depth : Nat) : openAfter depth o = some depth := by
  cases h <;> simp [openAfter]

theorem Elements.openAfter_eq {values : Shape} (h : Elements u values) (depth : Nat) :
    openAfter depth u = some depth := by
  induction h with
  | nil => simp [openAfter]
  | integer n _ ih => rw [openAfter_other (by simp) (by simp), ih]
  | name n _ ih => rw [openAfter_other (by simp) (by simp), ih]

/-- The parentheses of a phrase are balanced. -/
theorem Derives.openAfter_eq (h : Derives extent X u rest p) (depth : Nat) :
    openAfter depth u = some depth := by
  induction h generalizing depth with
  | lift _ _ ih => exact ih depth
  | join _ hop _ _ ihl ihr => simp [openAfter_append, ihl, hop.openAfter_eq, ihr]
  | leading ht _ _ ih => cases ht <;> rw [openAfter_other (by simp) (by simp), ih]
  | paren _ ih => simp [openAfter, openAfter_append, ih]
  | vector he => simp [openAfter, openAfter_append, he.openAfter_eq]
  | name n => simp [openAfter]
  | declared n he => simp [openAfter, openAfter_append, he.openAfter_eq]

/-- An expression cannot go on past a parenthesis that closes around it. -/
theorem Derives.farthest_of_closing (h : Derives extent X u rest p) (hrest : Closing rest) :
    Farthest u rest := by
  intro u' rest' heq ⟨q, hq⟩
  refine Nat.le_of_not_lt fun hlt => ?_
  obtain ⟨w, rfl, hw⟩ : ∃ w, u' = u ++ w ∧ rest = w ++ rest' := by
    rcases List.append_eq_append_iff.1 heq with ⟨w, hu', hrest⟩ | ⟨w, rfl, -⟩
    · exact ⟨w, hu', hrest⟩
    · simp only [List.length_append] at hlt
      omega
  cases w with
  | nil => simp at hlt
  | cons t w =>
    have ht : t = .rightParen := by
      rcases hrest with rfl | hhead
      · simp at hw
      · simpa [hw] using hhead
    have hbalance := hq.openAfter_eq 0
    simp [openAfter_append, h.openAfter_eq, ht, openAfter] at hbalance

theorem Derives.farthest (h : Derives (fun _ => Closing) X u rest p) :
    Derives Farthest X u rest p :=
  h.imp fun hu hrest => hu.farthest_of_closing hrest

/-- What may stand after a phrase: the end, a parenthesis that closes, or an operator and the phrase
on its right. -/
def Follows (rest : List Token) : Prop :=
  Closing rest ∨ ∃ Z o op v rest', rest = o ++ (v ++ rest') ∧ Joins Z o op ∧ Derivable v

/-- If no operand of a leading operator ends before a binary operator, all of them end where a
parenthesis closes. -/
theorem Derives.closing (h : Derives extent X u rest p)
    (hextent : ∀ {u Z o op v rest}, Derivable u → Joins Z o op → Derivable v →
      ¬ extent u (o ++ (v ++ rest)))
    (hrest : Follows rest) : Derives (fun _ => Closing) X u rest p := by
  induction h with
  | lift hX _ ih => exact .lift hX (ih hrest)
  | join hX hop _ hr ihl ihr =>
    exact .join hX hop (ihl (.inr ⟨_, _, _, _, _, rfl, hop, hr.derivable⟩)) (ihr hrest)
  | leading ht hu hext ih =>
    refine .leading ht (ih hrest) ?_
    rcases hrest with hclosing | ⟨Z, o, op, v, rest', rfl, hop, hv⟩
    · exact hclosing
    · exact absurd hext (hextent hu.derivable hop hv)
  | paren _ ih => exact .paren (ih (.inl (closing_rightParen _)))
  | vector he => exact .vector he
  | name n => exact .name n
  | declared n he => exact .declared n he

/-- An operand that goes as far as it can takes in every operator after it. -/
theorem Derivable.not_farthest (hu : Derivable u) (hop : Joins Z o op) (hv : Derivable v) :
    ¬ Farthest u (o ++ (v ++ rest)) := by
  intro h
  have hle := h (u ++ (o ++ v)) rest (by simp) (hu.join hop hv)
  have hpos := hop.length_pos
  simp only [List.length_append] at hle
  omega

/-- **The derivations in which operands of leading operators go as far as they can** are those in which
they end where a parenthesis closes, or at the end. -/
theorem derives_farthest_iff :
    Derives Farthest .expr u [] p ↔ Derives (fun _ => Closing) .expr u [] p :=
  ⟨fun h => h.closing (fun hu hop hv => hu.not_farthest hop hv) (.inl (.inl rfl)), Derives.farthest⟩

end Grammar

end PsiCalculus
