import PsiCalculus.Grammar
import PsiCalculus.Proofs.Capacity

/-!
# What a source declares

A parsed context (`Context.parse_ok`) has a table of declarations and a raw tree:

* `SymbolTable.Declared`: no name has two entries, and every entry is a declaration: an array of the
  user, whose value is open and whose shape, if it is given, is made of dimensions, or a vector
  literal under a generated name. A dimension (`SymbolTable.Dimension`) is an integer or names a
  scalar of the user.
* `Expr.Raw`: leaves name entries of the table, the operators are those of the grammar with one or two
  operands, and no node knows its shape.

The grammar's computations are composed by `Keeps`: from a table of declarations and tokens whose
identifiers are user's names they arrive at such a state again, and the table only grows.
-/

namespace PsiCalculus

/-! ## Declarations -/

namespace SymbolTable

/-- An integer, or the name of a scalar of the user. -/
def Dimension (t : SymbolTable) (e : Element) : Prop :=
  (∃ n, e = .int n) ∨ ∃ name, e = .named name ∧ isGenerated name = false ∧
    t.get? name = some (.array (some []) none)

theorem Dimension.mono {t t' : SymbolTable} (h : Extends t t') {e : Element} (he : t.Dimension e) :
    t'.Dimension e := by
  obtain ⟨n, rfl⟩ | ⟨name, rfl, hu, hg⟩ := he
  · exact .inl ⟨n, rfl⟩
  · exact .inr ⟨name, rfl, hu, h.get? hg⟩

/-- What a source may say of a name. -/
inductive Declaration (t : SymbolTable) (name : String) : Symbol → Prop
  | user {shape : Option Shape} : isGenerated name = false → (∀ e ∈ shape.getD [], t.Dimension e) →
      Declaration t name (.array shape none)
  | literal {values : Shape} : isGenerated name = true → (∀ e ∈ values, t.Dimension e) →
      Declaration t name (.array (some [.int values.length]) (some values))

theorem Declaration.mono {t t' : SymbolTable} (h : Extends t t') {name : String} {s : Symbol}
    (hd : t.Declaration name s) : t'.Declaration name s := by
  cases hd with
  | user hu hs => exact .user hu fun e he => (hs e he).mono h
  | literal hg hv => exact .literal hg fun e he => (hv e he).mono h

/-- A table of declarations, one for each name. -/
structure Declared (t : SymbolTable) : Prop where
  nodup : t.names.Nodup
  entry : ∀ {name s}, t.get? name = some s → t.Declaration name s

theorem Declared.empty : Declared empty := ⟨List.nodup_nil, fun h => by simp at h⟩

theorem Declared.adds {t t' : SymbolTable} {name : String} {s : Symbol} (ht : t.Declared)
    (ha : Adds t name s t') (hs : t'.Declaration name s) : t'.Declared := by
  refine ⟨ha.nodup ht.nodup, fun {other s'} hget => ?_⟩
  by_cases hne : other = name
  · subst hne
    rw [ha.get?_self] at hget
    cases hget
    exact hs
  · rw [ha.get?_other hne] at hget
    exact (ht.entry hget).mono ha.grows

/-- Binding a name leaves the table, or adds the symbol to it. -/
theorem insert_cases {t t' : SymbolTable} {name : String} {s : Symbol}
    (h : t.insert name s = .ok t') : t' = t ∧ t.get? name = some s ∨ Adds t name s t' := by
  rcases entries_of_insert h with ⟨hget, rfl⟩ | ⟨hnone, he⟩
  · exact .inl ⟨rfl, hget⟩
  · exact .inr ⟨hnone, he⟩

theorem insert_grows {t t' : SymbolTable} {name : String} {s : Symbol}
    (h : t.insert name s = .ok t') : Extends t t' := by
  rcases insert_cases h with ⟨rfl, -⟩ | ha
  · exact .refl _
  · exact ha.grows

theorem Declared.insert {t t' : SymbolTable} {name : String} {s : Symbol} (ht : t.Declared)
    (h : t.insert name s = .ok t') (hs : t.Declaration name s) : t'.Declared := by
  rcases insert_cases h with ⟨rfl, -⟩ | ha
  · exact ht
  · exact ht.adds ha (hs.mono ha.grows)

end SymbolTable

open SymbolTable

/-! ## Raw trees -/

/-- Operators that are written before their operand. -/
def Operator.leads : Operator → Bool
  | transpose | shape | dim | iota | tau | rav | reduce _ => true
  | _ => false

/-- Operators that are written between their operands. -/
def Operator.joins : Operator → Bool
  | psi | take | drop | cat | permute | assign | arith _ | outer _ | inner _ _ => true
  | _ => false

/-- A tree of the grammar over the names of a table, without shapes. -/
inductive Expr.Raw (t : SymbolTable) : Expr → Prop
  | leaf {name : String} {s : Symbol} : t.get? name = some s → Raw t (.array name none)
  | unary {op : Operator} {operand : Expr} : op.leads = true → Raw t operand →
      Raw t (.unary op none operand)
  | binary {op : Operator} {left right : Expr} : op.joins = true → Raw t left → Raw t right →
      Raw t (.binary op none left right)

theorem Expr.Raw.mono {t t' : SymbolTable} (h : Extends t t') {e : Expr} (he : e.Raw t) :
    e.Raw t' := by
  induction he with
  | leaf hs => exact .leaf (h.get? hs)
  | unary hop _ ih => exact .unary hop ih
  | binary hop _ _ ihl ihr => exact .binary hop ihl ihr

/-- A raw tree over a table of declarations. -/
structure Context.Raw (c : Context) : Prop where
  declared : c.table.Declared
  tree : c.tree.Raw c.table

/-! ## Tokens -/

section

open Token

/-- The name is an identifier, and no keyword. -/
def IsWord (name : String) : Prop :=
  (∃ c word, name.toList = c :: word ∧ isLetter c = true ∧ ∀ d ∈ word, isIdentChar d = true) ∧
    ofWord name = .ident name

theorem Token.isGenerated_of_isLetter {c : Char} (hc : isLetter c = true) (word : List Char) :
    isGenerated (String.ofList (c :: word)) = false := by
  have hne : c ≠ '_' := by
    rintro rfl
    revert hc
    decide
  simp [isGenerated, hne]

theorem IsWord.user {name : String} (h : IsWord name) : isGenerated name = false := by
  obtain ⟨⟨c, word, htext, hc, -⟩, -⟩ := h
  rw [← String.ofList_toList (s := name), htext]
  exact isGenerated_of_isLetter hc word

/-- Identifiers are words, and integers are not too large. -/
def Token.Regular : Token → Prop
  | .ident name => IsWord name
  | .integer n => n ≤ maxInteger
  | _ => True

theorem Lexeme.next_regular {c : Char} {rest : List Char} {t : Token} {n : Nat}
    (h : next c rest = (.token t, n)) : t.Regular := by
  have hoperator : ∀ {op}, operator op rest = (.token t, n) → t.Regular := by
    intro op h
    unfold operator at h
    split at h <;> cases h <;> trivial
  unfold next at h
  split at h
  · simp at h
  split at h
  · simp at h
  split at h
  · dsimp only at h
    split at h <;> cases h
    assumption
  split at h
  · next hc =>
    cases h
    have hword : ∀ d ∈ rest.takeWhile isIdentChar, isIdentChar d = true :=
      List.all_eq_true.1 List.all_takeWhile
    by_cases hident : ofWord (String.ofList (c :: rest.takeWhile isIdentChar)) =
        .ident (String.ofList (c :: rest.takeWhile isIdentChar))
    · rw [hident]
      exact ⟨⟨c, _, String.toList_ofList, hc, hword⟩, hident⟩
    · revert hident
      unfold ofWord
      split <;> simp [Token.Regular]
  split at h
  iterate 4
    · exact hoperator h
  iterate 6
    · cases h
      trivial
  · split at h <;> cases h
    trivial
  · cases h

theorem Token.scanFrom_regular (position : Nat) (source : List Char) {tokens : List Spanned}
    (h : scanFrom position source = .ok tokens) : ∀ s ∈ tokens, s.token.Regular := by
  fun_induction scanFrom position source generalizing tokens with
  | case1 => cases h; simp
  | case2 =>
    rename_i ih
    exact ih h
  | case3 =>
    rename_i hnext ih
    obtain ⟨later, hlater, hcons⟩ := except_bind_ok.1 h
    cases hcons
    intro s hs
    rcases List.mem_cons.1 hs with rfl | hs
    · exact Lexeme.next_regular hnext
    · exact ih hlater s hs
  | case4 => cases h

/-- Identifiers are names of the user. -/
def Token.Plain (t : Token) : Prop := ∀ name, t = .ident name → isGenerated name = false

theorem Token.Regular.plain {t : Token} (h : t.Regular) : t.Plain := by
  rintro name rfl
  exact IsWord.user h

theorem Token.scanFrom_plain (position : Nat) (source : List Char) {tokens : List Spanned}
    (h : scanFrom position source = .ok tokens) : ∀ s ∈ tokens, s.token.Plain :=
  fun s hs => (scanFrom_regular position source h s hs).plain

end

/-! ## The grammar -/

namespace Grammar

/-- Declarations so far, and user's names to come. -/
structure State.Good (s : State) : Prop where
  declared : s.table.Declared
  counted : s.table.Counted
  plain : ∀ token ∈ s.tokens, token.token.Plain

/-- From a good state whose table extends `t` the computation arrives at a good one with a larger
table, in which its result has the property. -/
def Keeps {α : Type} (t : SymbolTable) (m : Reading α) (P : SymbolTable → α → Prop) : Prop :=
  ∀ (s s' : State) (a : α), s.Good → Extends t s.table → m.run s = .ok (a, s') →
    s'.Good ∧ Extends s.table s'.table ∧ P s'.table a

namespace Keeps

variable {α β : Type} {t : SymbolTable} {P : SymbolTable → α → Prop} {Q : SymbolTable → β → Prop}

theorem bind {m : Reading α} {f : α → Reading β} (hm : Keeps t m P)
    (hf : ∀ t₁ a, Extends t t₁ → P t₁ a → Keeps t₁ (f a) Q) : Keeps t (m >>= f) Q := by
  intro s s' b hs ht h
  obtain ⟨a, s₁, h₁, h₂⟩ := bind_ok.1 h
  obtain ⟨hs₁, hg₁, ha⟩ := hm s s₁ a hs ht h₁
  obtain ⟨hs₂, hg₂, hb⟩ := hf _ a (ht.trans hg₁) ha s₁ s' b hs₁ (.refl _) h₂
  exact ⟨hs₂, hg₁.trans hg₂, hb⟩

theorem pure {a : α} (h : ∀ t', Extends t t' → P t' a) : Keeps t (Pure.pure a) P := by
  intro s s' b hs ht hb
  cases pure_ok.1 hb
  exact ⟨hs, .refl _, h _ ht⟩

theorem ite {c : Prop} [Decidable c] {m m' : Reading α} (h : Keeps t m P) (h' : Keeps t m' P) :
    Keeps t (if c then m else m') P := by
  split
  · exact h
  · exact h'

end Keeps

section
variable {t : SymbolTable}

theorem keeps_peek : Keeps t peek fun _ next => ∀ token, next = some token → token.Plain := by
  intro s s' a hs _ h
  simp only [peek, bind_ok, get_ok, pure_ok, Prod.mk.injEq] at h
  obtain ⟨_, _, ⟨rfl, rfl⟩, rfl, rfl⟩ := h
  refine ⟨hs, .refl _, fun token ht => ?_⟩
  obtain ⟨spanned, hhead, rfl⟩ := Option.map_eq_some_iff.1 ht
  exact hs.plain _ (List.mem_of_head? hhead)

theorem keeps_lookahead : Keeps t lookahead fun _ _ => True := by
  intro s s' a hs _ h
  simp only [lookahead, bind_ok, get_ok, pure_ok, Prod.mk.injEq] at h
  obtain ⟨_, _, ⟨rfl, rfl⟩, -, rfl⟩ := h
  exact ⟨hs, .refl _, trivial⟩

theorem keeps_skip (count : Nat) : Keeps t (skip count) fun _ _ => True := by
  intro s s' a hs _ h
  cases modify_ok.1 h
  exact ⟨⟨hs.declared, hs.counted, fun t ht => hs.plain t (List.mem_of_mem_drop ht)⟩, .refl _,
    trivial⟩

theorem keeps_unexpected {α : Type} {P : SymbolTable → α → Prop} (expected : Expected) :
    Keeps t (unexpected expected) P := by
  intro s s' a hs _ h
  simp only [unexpected, bind_ok, throw_ok, and_false, exists_false] at h

theorem keeps_expect (token : Token) : Keeps t (expect token) fun _ _ => True :=
  keeps_peek.bind fun _ _ _ _ => .ite (keeps_skip 1) (keeps_unexpected _)

theorem keeps_declare {name : String} (shape : Option Shape) (hn : isGenerated name = false)
    (hs : ∀ e ∈ shape.getD [], t.Dimension e) :
    Keeps t (declare name shape) fun t' _ => t'.get? name = some (.array shape none) := by
  intro s s' a hgood ht h
  simp only [declare, bind_ok, get_ok, lift_ok, set_ok, Prod.mk.injEq] at h
  obtain ⟨_, _, ⟨rfl, rfl⟩, table, _, ⟨_, hins, rfl, rfl⟩, -, rfl⟩ := h
  exact ⟨⟨hgood.declared.insert hins (.user hn fun e he => (hs e he).mono ht),
    hgood.counted.insert_user hn hins, hgood.plain⟩, insert_grows hins, get?_insert_self hins⟩

theorem elementsFrom_ok : ∀ (tokens : List Spanned) (table : SymbolTable) {r : Shape × State},
    State.Good ⟨tokens, table⟩ → elementsFrom tokens table = .ok r →
    r.2.Good ∧ Extends table r.2.table ∧ ∀ e ∈ r.1, r.2.table.Dimension e := by
  intro tokens table
  fun_induction elementsFrom tokens table with
  | case1 n _ _ rest table ih =>
    intro r hs h
    obtain ⟨⟨elements, state⟩, hrest, hr⟩ := except_bind_ok.1 h
    cases hr
    obtain ⟨hgood, hg, he⟩ := ih ⟨hs.declared, hs.counted, fun t ht => hs.plain t (.tail _ ht)⟩ hrest
    refine ⟨hgood, hg, fun e hmem => ?_⟩
    rcases List.mem_cons.1 hmem with rfl | hmem
    · exact .inl ⟨_, rfl⟩
    · exact he e hmem
  | case2 name _ _ rest table ih =>
    intro r hs h
    obtain ⟨table₁, hins, h⟩ := except_bind_ok.1 h
    obtain ⟨⟨elements, state⟩, hrest, hr⟩ := except_bind_ok.1 h
    cases hr
    have hn : isGenerated name = false := hs.plain _ (.head _) name rfl
    have hdecl := hs.declared.insert hins (.user hn (by simp))
    obtain ⟨hgood, hg, he⟩ := ih table₁
      ⟨hdecl, hs.counted.insert_user hn hins, fun t ht => hs.plain t (.tail _ ht)⟩ hrest
    refine ⟨hgood, (insert_grows hins).trans hg, fun e hmem => ?_⟩
    rcases List.mem_cons.1 hmem with rfl | hmem
    · exact .inr ⟨name, rfl, hn, hg.get? (get?_insert_self hins)⟩
    · exact he e hmem
  | case3 tokens table _ _ =>
    intro r hs h
    cases h
    exact ⟨hs, .refl _, by simp⟩

theorem keeps_vector : Keeps t vector fun t' elements => ∀ e ∈ elements, t'.Dimension e := by
  refine (keeps_expect .leftAngle).bind fun t₁ _ _ _ => Keeps.bind
    (P := fun t' elements => ∀ e ∈ elements, t'.Dimension e) ?_ fun t₂ elements _ he => ?_
  · intro s s' a hs _ h
    exact elementsFrom_ok s.tokens s.table hs h
  · exact (keeps_expect .rightAngle).bind fun t₃ _ h₃ _ =>
      .pure fun t' ht e hmem => (he e hmem).mono (h₃.trans ht)

theorem keeps_literal : Keeps t literal fun t' e => e.Raw t' := by
  refine keeps_vector.bind fun t₁ values _ hv => ?_
  intro s s' a hs ht h
  simp only [bind_ok, get_ok, lift_ok, set_ok, pure_ok, Prod.mk.injEq] at h
  obtain ⟨_, _, ⟨rfl, rfl⟩, _, _, ⟨table, hins, rfl, rfl⟩, _, _, ⟨-, rfl⟩, rfl, rfl⟩ := h
  refine ⟨⟨?_, hs.counted.insert_fresh hins, hs.plain⟩, insert_grows hins,
    .leaf (get?_insert_self hins)⟩
  exact hs.declared.insert hins (.literal (isGenerated_generatedName _ _)
    fun e he => (hv e he).mono ht)

theorem keeps_declaration {name : String} (hn : isGenerated name = false) :
    Keeps t (declaration name) fun t' _ => ∃ s, t'.get? name = some s := by
  refine keeps_peek.bind fun t₁ _ _ _ => .ite ?_ ?_
  · refine (keeps_skip 1).bind fun t₂ _ _ _ => keeps_vector.bind fun t₃ shape _ hs => ?_
    intro s s' a hgood ht h
    obtain ⟨hgood', hg, hget⟩ := keeps_declare (some shape) hn hs s s' a hgood ht h
    exact ⟨hgood', hg, _, hget⟩
  · intro s s' a hgood ht h
    obtain ⟨_, _, hget, h⟩ := bind_ok.1 h
    cases get_ok.1 hget
    split at h
    · obtain ⟨hgood', hg, hget⟩ :=
        keeps_declare (t := t₁) none hn (by simp) s s' a hgood ht h
      exact ⟨hgood', hg, _, hget⟩
    · next hc =>
      cases pure_ok.1 h
      exact ⟨hgood, .refl _, contains_iff.1 (by simpa using hc)⟩

end

/-! ## Expressions -/

/-- The operators that a reader of operators finds stand between operands. -/
def FindsJoining (operator? : List Token → Option (Operator × Nat)) : Prop :=
  ∀ tokens op width, operator? tokens = some (op, width) → op.joins = true

theorem assignment?_joins : FindsJoining assignment? := by
  intro tokens op width h
  unfold assignment? at h
  split at h <;> cases h
  rfl

theorem structural?_joins : FindsJoining structural? := by
  intro tokens op width h
  unfold structural? at h
  split at h <;> cases h <;> rfl

theorem arithmetic?_joins (allowed : List ArithOp) : FindsJoining (arithmetic? allowed) := by
  intro tokens op width h
  unfold arithmetic? at h
  split at h
  · cases h
  · split at h <;> cases h
    rfl
  · cases h

theorem leadingOperator?_leads {token : Token} {op : Operator}
    (h : leadingOperator? token = some op) : op.leads = true := by
  unfold leadingOperator? at h
  split at h <;> cases h <;> rfl

/-- Reads a raw tree, whatever table it starts from. -/
def ReadsRaw (m : Reading Expr) : Prop := ∀ t, Keeps t m fun t' e => e.Raw t'

theorem chainFrom_raw {operator? : List Token → Option (Operator × Nat)} {operand : Reading Expr}
    (hop : FindsJoining operator?) (ho : ReadsRaw operand) :
    ∀ (rounds : Nat) (left : Expr) (t : SymbolTable), left.Raw t →
      Keeps t (chainFrom operator? operand rounds left) fun t' e => e.Raw t'
  | 0, _, _, hl => .pure fun _ ht => hl.mono ht
  | rounds + 1, left, t, hl => by
    refine keeps_lookahead.bind fun t₁ tokens h₁ _ => ?_
    split
    · exact .pure fun _ ht => hl.mono (h₁.trans ht)
    · next op width hfound =>
      exact (keeps_skip width).bind fun t₂ _ h₂ _ => (ho t₂).bind fun t₃ right h₃ hr =>
        chainFrom_raw hop ho rounds _ t₃
          (.binary (hop _ _ _ hfound) (hl.mono (h₁.trans (h₂.trans h₃))) hr)

theorem chain_raw {operator? : List Token → Option (Operator × Nat)} {operand : Reading Expr}
    (hop : FindsJoining operator?) (ho : ReadsRaw operand) : ReadsRaw (chain operator? operand) := by
  intro t
  refine (ho t).bind fun t₁ left _ hl => ?_
  intro s s' e hs ht h
  obtain ⟨_, _, hget, h⟩ := bind_ok.1 h
  cases get_ok.1 hget
  exact chainFrom_raw hop ho _ left t₁ hl s s' e hs ht h

theorem expression_raw {unary : Reading Expr} (hu : ReadsRaw unary) : ReadsRaw (expression unary) :=
  chain_raw assignment?_joins <| chain_raw structural?_joins <| chain_raw (arithmetic?_joins _) <|
    chain_raw (arithmetic?_joins _) hu

theorem primary_raw {nested : Reading Expr} (hn : ReadsRaw nested) : ReadsRaw (primary nested) := by
  intro t
  refine keeps_peek.bind fun t₁ next _ hplain => ?_
  split
  · exact (keeps_skip 1).bind fun t₂ _ _ _ => (hn t₂).bind fun t₃ e _ he =>
      (keeps_expect _).bind fun t₄ _ h₄ _ => .pure fun _ ht => he.mono (h₄.trans ht)
  · exact keeps_literal
  · next name =>
    refine (keeps_skip 1).bind fun t₂ _ _ _ =>
      (keeps_declaration (hplain _ rfl name rfl)).bind fun t₃ _ _ hget => .pure fun _ ht => ?_
    obtain ⟨s, hs⟩ := hget
    exact .leaf (ht.get? hs)
  · exact keeps_unexpected _

theorem unary_raw : ∀ depth, ReadsRaw (unary depth)
  | 0 => fun _ => keeps_unexpected _
  | depth + 1 => by
    intro t
    refine keeps_peek.bind fun t₁ next _ _ => ?_
    split
    · next op hop =>
      obtain ⟨token, -, hop⟩ := Option.bind_eq_some_iff.1 hop
      exact (keeps_skip 1).bind fun t₂ _ _ _ =>
        (expression_raw (unary_raw depth) t₂).bind fun t₃ e _ he =>
          .pure fun _ ht => .unary (leadingOperator?_leads hop) (he.mono ht)
    · exact primary_raw (expression_raw (unary_raw depth)) t₁

theorem whole_raw (depth : Nat) : ReadsRaw (whole depth) := by
  intro t
  refine (expression_raw (unary_raw depth) t).bind fun t₁ e _ he => ?_
  intro s s' a hs ht h
  obtain ⟨_, _, hget, h⟩ := bind_ok.1 h
  cases get_ok.1 hget
  exact Keeps.ite (.pure fun _ ht => he.mono ht) (keeps_unexpected _) s s' a hs ht h

end Grammar

/-! ## Parsed contexts -/

theorem Context.parse_ok {source : String} {c : Context} (h : Context.parse source = .ok c) :
    c.Raw ∧ c.table.Counted := by
  obtain ⟨tokens, hscan, h⟩ := except_bind_ok.1 h
  obtain ⟨⟨tree, state⟩, hrun, hc⟩ := except_bind_ok.1 h
  cases hc
  obtain ⟨hgood, -, hraw⟩ := Grammar.whole_raw tokens.length .empty ⟨tokens, .empty⟩ state tree
    ⟨.empty, .empty, Token.scanFrom_plain 0 _ hscan⟩ (.refl _) hrun
  exact ⟨⟨hgood.declared, hraw⟩, hgood.counted⟩

/-- **A parsed context is raw**: a tree of the grammar over a table of declarations. -/
theorem Context.parse_raw {source : String} {c : Context} (h : Context.parse source = .ok c) :
    c.Raw := (Context.parse_ok h).1

/-- The names of a source are numbered one after the other. -/
theorem Context.parse_counted {source : String} {c : Context} (h : Context.parse source = .ok c) :
    c.table.Counted := (Context.parse_ok h).2

end PsiCalculus
