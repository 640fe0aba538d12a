import PsiCalculus.Proofs.Grammar.Elaboration

/-!
# The reader follows the grammar

`reader depth X` is the part of the parser that reads a phrase of category `X`.

* `unary_reads`, `expression_reads`: what it passes over is a phrase of the category (`Reads`), so that
  the parser accepts nothing outside of the grammar (`whole_derivable`).
* `Derives.read`: before tokens that cannot go on with the phrase, it passes over the phrase and builds
  it. The derivation has to be one in which no operator stands after the operand of a leading operator
  (`NoOp`); there is one for every expression (`Derivable.closing`). The reader of a chain then stands
  before an operator of its level (`PassesOperand`), or is done (`Passes`), and the rounds and the depth
  it has left suffice for the tokens that are left.
* `ofTokens_eq`: hence the context of an expression is what is built from its derivation.
-/

namespace PsiCalculus

namespace Grammar

variable {X Y Z : Category} {u v o rest : List Token} {op : Operator} {p : Phrase}

/-! ## Operators -/

/-- The binary operator of a category at the head of the tokens, and the number of tokens it takes. -/
def Category.operator? : Category → List Token → Option (Operator × Nat)
  | expr => assignment?
  | struct => structural?
  | add => arithmetic? [.plus, .minus]
  | mul => arithmetic? [.times, .divide]
  | unary | primary => fun _ => none

/-- No binary operator stands at the head of the tokens. -/
def NoOp (rest : List Token) : Prop := ∀ X : Category, X.operator? rest = none

/-- Three tokens are enough to tell the operator. -/
theorem operator?_take (X : Category) (tokens : List Token) :
    X.operator? (tokens.take 3) = X.operator? tokens := by
  rcases tokens with _ | ⟨a, _ | ⟨b, _ | ⟨c, tokens⟩⟩⟩
  iterate 3 rfl
  cases X with
  | expr => cases a <;> rfl
  | struct =>
    cases a with
    | dot => cases b <;> rfl
    | arith => cases b <;> first | rfl | cases c <;> rfl
    | _ => rfl
  | add | mul =>
    cases a with
    | arith => cases b <;> rfl
    | _ => rfl
  | unary | primary => rfl

theorem Joins.of_assignment? {width : Nat} {tokens : List Token}
    (h : assignment? tokens = some (op, width)) :
    ∃ o rest, tokens = o ++ rest ∧ o.length = width ∧ Joins .expr o op := by
  unfold assignment? at h
  split at h <;> cases h
  exact ⟨[_], _, rfl, rfl, .assign⟩

theorem Joins.of_structural? {width : Nat} {tokens : List Token}
    (h : structural? tokens = some (op, width)) :
    ∃ o rest, tokens = o ++ rest ∧ o.length = width ∧ Joins .struct o op := by
  unfold structural? at h
  split at h <;> cases h
  · exact ⟨[_], _, rfl, rfl, .psi⟩
  · exact ⟨[_], _, rfl, rfl, .take⟩
  · exact ⟨[_], _, rfl, rfl, .drop⟩
  · exact ⟨[_], _, rfl, rfl, .cat⟩
  · exact ⟨[_], _, rfl, rfl, .permute⟩
  · exact ⟨[_, _], _, rfl, rfl, .outer _⟩
  · exact ⟨[_, _, _], _, rfl, rfl, .inner _ _⟩

theorem Joins.of_arithmetic? {width : Nat} {tokens : List Token} {allowed : List ArithOp}
    (h : arithmetic? allowed tokens = some (op, width))
    (hallowed : ∀ op ∈ allowed, Joins X [.arith op] (.arith op)) :
    ∃ o rest, tokens = o ++ rest ∧ o.length = width ∧ Joins X o op := by
  unfold arithmetic? at h
  split at h
  · cases h
  · split at h <;> cases h
    exact ⟨[_], _, rfl, rfl, hallowed _ ‹_›⟩
  · cases h

/-- An operator that is found is one of the category. -/
theorem Joins.of_operator? {width : Nat} {tokens : List Token}
    (h : X.operator? tokens = some (op, width)) :
    ∃ o rest, tokens = o ++ rest ∧ o.length = width ∧ Joins X o op := by
  cases X with
  | expr => exact of_assignment? h
  | struct => exact of_structural? h
  | add =>
    refine of_arithmetic? h fun op hop => ?_
    rcases op with _ | _ | _ | _ <;> first | exact .plus | exact .minus | simp at hop
  | mul =>
    refine of_arithmetic? h fun op hop => ?_
    rcases op with _ | _ | _ | _ <;> first | exact .times | exact .divide | simp at hop
  | unary | primary => cases h

/-- An operator is found, unless a dot makes it a part of another one. -/
theorem Joins.operator?_eq (h : Joins X o op) (hv : v.head? ≠ some .dot) :
    X.operator? (o ++ v) = some (op, o.length) := by
  cases h <;> try rfl
  all_goals
    rcases v with _ | ⟨t, v⟩
    · rfl
    · cases t <;> first | rfl | exact absurd rfl hv

/-- The readers of tighter operators pass it by. -/
theorem Joins.operator?_tighter (h : Joins X o op) (hlt : X.rank < Z.rank) (v : List Token) :
    Z.operator? (o ++ v) = none := by
  cases h <;> cases Z <;> first | rfl | exact absurd hlt (by decide) | skip
  all_goals
    rcases v with _ | ⟨t, v⟩
    · rfl
    · cases t <;> rfl

theorem Joins.head_ne_caret (h : Joins X o op) (v : List Token) : (o ++ v).head? ≠ some .caret := by
  cases h <;> simp

theorem Closing.noOp (h : Closing rest) : NoOp rest := by
  intro X
  rcases rest with _ | ⟨t, rest⟩
  · cases X <;> rfl
  · obtain h | h := h
    · cases h
    · cases h
      cases X <;> rfl

/-! ## Readers -/

/-- The reader of a category. -/
def reader (depth : Nat) : Category → Reading Expr
  | .expr => expression (unary depth)
  | .struct => chain structural? <| chain (arithmetic? [.plus, .minus]) <|
      chain (arithmetic? [.times, .divide]) (unary depth)
  | .add => chain (arithmetic? [.plus, .minus]) <| chain (arithmetic? [.times, .divide]) (unary depth)
  | .mul => chain (arithmetic? [.times, .divide]) (unary depth)
  | .unary => unary depth
  | .primary => primary (expression (unary (depth - 1)))

theorem reader_chain (h : Holds X Y) (hX : X ≠ .unary) (depth : Nat) :
    reader depth X = chain X.operator? (reader depth Y) := by
  cases h <;> first | rfl | exact absurd rfl hX

section
variable {s : State} {t : Token}

theorem run_peek_bind {α : Type} (f : Option Token → Reading α) :
    (peek >>= f).run s = (f (s.tokens.map Spanned.token).head?).run s := by
  rw [List.head?_map]
  rfl

theorem run_lookahead_bind {α : Type} (f : List Token → Reading α) :
    (lookahead >>= f).run s = (f ((s.tokens.map Spanned.token).take 3)).run s := by
  rw [← List.map_take]
  rfl

theorem run_skip_bind {α : Type} (count : Nat) (f : Unit → Reading α) :
    (skip count >>= f).run s = (f ()).run ⟨s.tokens.drop count, s.table⟩ := rfl

theorem expect_run (h : (s.tokens.map Spanned.token).head? = some t) :
    (expect t).run s = .ok ((), ⟨s.tokens.drop 1, s.table⟩) := by
  rw [expect, run_peek_bind, if_pos h]
  rfl

theorem unexpected_ok {α : Type} {expected : Expected} {r : α × State} :
    (unexpected expected).run s = .ok r ↔ False := by
  simp only [unexpected, bind_ok, throw_ok, and_false, exists_false]

theorem expect_ok {s' : State} {a : Unit} (h : (expect t).run s = .ok (a, s')) :
    s.tokens.map Spanned.token = t :: s'.tokens.map Spanned.token := by
  rw [expect, run_peek_bind] at h
  split at h
  · next hhead =>
    cases modify_ok.1 h
    obtain ⟨rest, hrest⟩ := List.head?_eq_some_iff.1 hhead
    rw [List.map_drop, hrest]
    rfl
  · exact (unexpected_ok.1 h).elim

end

/-! ## What is read is derivable -/

/-- What the computation passes over is a phrase of the category. -/
def Reads (X : Category) (m : Reading Expr) : Prop :=
  ∀ s e s', m.run s = .ok (e, s') → ∃ u p,
    s.tokens.map Spanned.token = u ++ s'.tokens.map Spanned.token ∧
      Derives (fun _ _ => True) X u [] p

theorem elementsFrom_elements (tokens : List Spanned) (table : SymbolTable) {values : Shape} {s : State}
    (h : elementsFrom tokens table = .ok (values, s)) : ∃ u,
      tokens.map Spanned.token = u ++ s.tokens.map Spanned.token ∧ Elements u values := by
  fun_induction elementsFrom tokens table generalizing values with
  | case1 n _ _ rest table ih =>
    obtain ⟨⟨elements, state⟩, hrest, hr⟩ := except_bind_ok.1 h
    cases hr
    obtain ⟨u, hu, he⟩ := ih hrest
    exact ⟨.integer n :: u, by simp [hu], .integer n he⟩
  | case2 name _ _ rest table ih =>
    obtain ⟨table₁, -, h⟩ := except_bind_ok.1 h
    obtain ⟨⟨elements, state⟩, hrest, hr⟩ := except_bind_ok.1 h
    cases hr
    obtain ⟨u, hu, he⟩ := ih table₁ hrest
    exact ⟨.ident name :: u, by simp [hu], .name name he⟩
  | case3 tokens table =>
    cases h
    exact ⟨[], rfl, .nil⟩

theorem vector_elements {s s' : State} {values : Shape} (h : vector.run s = .ok (values, s')) :
    ∃ u, s.tokens.map Spanned.token =
      .leftAngle :: (u ++ [.rightAngle]) ++ s'.tokens.map Spanned.token ∧ Elements u values := by
  obtain ⟨_, s₁, hopen, h⟩ := bind_ok.1 h
  obtain ⟨elements, s₂, helements, h⟩ := bind_ok.1 h
  obtain ⟨_, s₃, hclose, h⟩ := bind_ok.1 h
  cases pure_ok.1 h
  obtain ⟨u, hu, he⟩ := elementsFrom_elements _ _ helements
  refine ⟨u, ?_, he⟩
  rw [expect_ok hopen, hu, expect_ok hclose]
  simp

theorem literal_reads : Reads .primary literal := by
  intro s e s' h
  obtain ⟨values, s₁, hvector, h⟩ := bind_ok.1 h
  simp only [bind_ok, get_ok, lift_ok, set_ok, pure_ok, Prod.mk.injEq] at h
  obtain ⟨_, _, ⟨rfl, rfl⟩, _, _, ⟨_, -, rfl, rfl⟩, _, _, ⟨-, rfl⟩, -, rfl⟩ := h
  obtain ⟨u, hu, he⟩ := vector_elements hvector
  exact ⟨_, _, hu, .vector he⟩

theorem declare_tokens {name : String} {shape : Option Shape} {s s' : State} {a : Unit}
    (h : (declare name shape).run s = .ok (a, s')) : s'.tokens = s.tokens := by
  simp only [declare, bind_ok, get_ok, lift_ok, set_ok, Prod.mk.injEq] at h
  obtain ⟨_, _, ⟨rfl, rfl⟩, _, _, ⟨_, -, rfl, rfl⟩, -, rfl⟩ := h
  rfl

/-- Tokens that start with `t` go on with those after it. -/
theorem map_drop_one {tokens : List Spanned} {t : Token} {u : List Token}
    (hhead : (tokens.map Spanned.token).head? = some t)
    (hu : (tokens.drop 1).map Spanned.token = u) : tokens.map Spanned.token = t :: u := by
  obtain ⟨rest, hrest⟩ := List.head?_eq_some_iff.1 hhead
  rw [List.map_drop, hrest] at hu
  rw [hrest, ← hu]
  rfl

theorem declaration_reads {name : String} {s s' : State} {a : Unit}
    (h : (declaration name).run s = .ok (a, s')) : ∃ u p,
      s.tokens.map Spanned.token = u ++ s'.tokens.map Spanned.token ∧
        Derives (fun _ _ => True) .primary (.ident name :: u) [] p := by
  rw [declaration, run_peek_bind] at h
  split at h
  · next hhead =>
    rw [run_skip_bind] at h
    obtain ⟨shape, s₁, hvector, h⟩ := bind_ok.1 h
    obtain ⟨u, hu, he⟩ := vector_elements hvector
    refine ⟨_, _, ?_, .declared name he⟩
    rw [declare_tokens h]
    exact map_drop_one hhead hu
  · obtain ⟨_, s₁, hget, h⟩ := bind_ok.1 h
    cases get_ok.1 hget
    refine ⟨[], _, ?_, .name name⟩
    split at h
    · rw [declare_tokens h]
      rfl
    · cases pure_ok.1 h
      rfl

theorem primary_reads {nested : Reading Expr} (hn : Reads .expr nested) :
    Reads .primary (primary nested) := by
  intro s e s' h
  rw [primary, run_peek_bind] at h
  split at h
  · next hhead =>
    rw [run_skip_bind] at h
    obtain ⟨e₁, s₁, hnested, h⟩ := bind_ok.1 h
    obtain ⟨_, s₂, hclose, h⟩ := bind_ok.1 h
    cases pure_ok.1 h
    obtain ⟨u, p, hu, hp⟩ := hn _ _ _ hnested
    refine ⟨_, _, ?_, .paren (hp.any_rest _)⟩
    rw [map_drop_one hhead hu, expect_ok hclose]
    simp
  · exact literal_reads _ _ _ h
  · next name hhead =>
    rw [run_skip_bind] at h
    obtain ⟨_, s₁, hdecl, h⟩ := bind_ok.1 h
    cases pure_ok.1 h
    obtain ⟨u, p, hu, hp⟩ := declaration_reads hdecl
    exact ⟨_, _, map_drop_one hhead hu, hp⟩
  · exact (unexpected_ok.1 h).elim

theorem Leads.of_leadingOperator? {t : Token} (h : leadingOperator? t = some op) : Leads t op := by
  unfold leadingOperator? at h
  split at h <;> cases h <;> constructor

/-- Every round of a chain takes an operator of the category and an operand. -/
theorem chainFrom_reads {operand : Reading Expr} (hXY : Holds X Y) (ho : Reads Y operand)
    (rounds : Nat) {left e : Expr} {s s' : State} (hl : Derives (fun _ _ => True) X u [] p)
    (h : (chainFrom X.operator? operand rounds left).run s = .ok (e, s')) : ∃ v q,
      s.tokens.map Spanned.token = v ++ s'.tokens.map Spanned.token ∧
        Derives (fun _ _ => True) X (u ++ v) [] q := by
  induction rounds generalizing left s u p with
  | zero =>
    cases pure_ok.1 h
    exact ⟨[], p, rfl, by simpa using hl⟩
  | succ rounds ih =>
    rw [chainFrom, run_lookahead_bind, operator?_take] at h
    split at h
    · cases pure_ok.1 h
      exact ⟨[], p, rfl, by simpa using hl⟩
    · next op width hfound =>
      obtain ⟨o, rest, htokens, rfl, hop⟩ := Joins.of_operator? hfound
      rw [run_skip_bind] at h
      obtain ⟨right, s₁, hoperand, h⟩ := bind_ok.1 h
      obtain ⟨v, q, hv, hq⟩ := ho _ _ _ hoperand
      rw [List.map_drop, htokens, List.drop_left] at hv
      obtain ⟨w, r, hw, hr⟩ := ih (.join hXY hop (hl.any_rest _) hq) h
      refine ⟨o ++ (v ++ w), r, ?_, by simpa using hr⟩
      rw [htokens, hv, hw]
      simp

theorem chain_reads {operand : Reading Expr} (hXY : Holds X Y) (ho : Reads Y operand) :
    Reads X (chain X.operator? operand) := by
  intro s e s' h
  obtain ⟨left, s₁, hleft, h⟩ := bind_ok.1 h
  obtain ⟨_, s₂, hget, h⟩ := bind_ok.1 h
  cases get_ok.1 hget
  obtain ⟨u, p, hu, hp⟩ := ho _ _ _ hleft
  obtain ⟨v, q, hv, hq⟩ := chainFrom_reads hXY ho _ (.lift hXY hp) h
  exact ⟨u ++ v, q, by rw [hu, hv, List.append_assoc], hq⟩

theorem expression_reads {unary : Reading Expr} (hu : Reads .unary unary) :
    Reads .expr (expression unary) :=
  chain_reads .expr <| chain_reads .struct <| chain_reads .add <| chain_reads .mul hu

theorem unary_reads (depth : Nat) : Reads .unary (unary depth) := by
  induction depth with
  | zero => exact fun s e s' h => (unexpected_ok.1 h).elim
  | succ depth ih =>
    intro s e s' h
    rw [unary, run_peek_bind] at h
    split at h
    · next op hop =>
      obtain ⟨t, hhead, hop⟩ := Option.bind_eq_some_iff.1 hop
      rw [run_skip_bind] at h
      obtain ⟨e₁, s₁, hoperand, h⟩ := bind_ok.1 h
      cases pure_ok.1 h
      obtain ⟨u, p, hu, hp⟩ := expression_reads ih _ _ _ hoperand
      exact ⟨t :: u, _, map_drop_one hhead hu, .leading (.of_leadingOperator? hop) hp trivial⟩
    · obtain ⟨u, p, hu, hp⟩ := primary_reads (expression_reads ih) _ _ _ h
      exact ⟨u, p, hu, .lift .unary hp⟩

/-- **What is read as a whole is derivable.** -/
theorem whole_derivable {depth : Nat} {tokens : List Spanned} {table : SymbolTable} {e : Expr}
    {s : State} (h : (whole depth).run ⟨tokens, table⟩ = .ok (e, s)) :
    Derivable (tokens.map Spanned.token) := by
  obtain ⟨e₁, s₁, hexpr, h⟩ := bind_ok.1 h
  obtain ⟨_, s₂, hget, h⟩ := bind_ok.1 h
  cases get_ok.1 hget
  split at h
  · next hempty =>
    obtain ⟨u, p, hu, hp⟩ := expression_reads (unary_reads depth) _ _ _ hexpr
    rw [List.isEmpty_iff.1 hempty, List.map_nil, List.append_nil] at hu
    exact hu ▸ hp.derivable
  · exact (unexpected_ok.1 h).elim

/-! ## What is derivable is read -/

/-- The next tighter category. -/
def Category.next : Category → Category
  | expr => struct
  | struct => add
  | add => mul
  | mul => unary
  | unary | primary => primary

/-- What the reader of a category does after a first operand. -/
def proceed (depth : Nat) (X : Category) (rounds : Nat) (left : Expr) : Reading Expr :=
  chainFrom X.operator? (reader depth X.next) rounds left

section
variable {depth rounds : Nat} {tokens : List Spanned} {t : SymbolTable}

theorem proceed_done (h : X.operator? (tokens.map Spanned.token) = none) (left : Expr) :
    (proceed depth X rounds left).run ⟨tokens, t⟩ = .ok (left, ⟨tokens, t⟩) := by
  cases rounds with
  | zero => rfl
  | succ rounds =>
    rw [proceed, chainFrom, run_lookahead_bind, operator?_take, h]
    rfl

theorem proceed_operator {width : Nat}
    (h : X.operator? (tokens.map Spanned.token) = some (op, width)) (left : Expr) :
    (proceed depth X (rounds + 1) left).run ⟨tokens, t⟩ =
      (reader depth X.next).run ⟨tokens.drop width, t⟩ >>= fun r =>
        (proceed depth X rounds (.binary op none left r.1)).run r.2 := by
  rw [proceed, chainFrom, run_lookahead_bind, operator?_take, h]
  rfl

theorem elementsFrom_eq {values : Shape} (h : Elements u values)
    (htokens : tokens.map Spanned.token = u ++ .rightAngle :: rest) (t : SymbolTable) :
    elementsFrom tokens t =
      t.enterAll values.declarations >>= fun t => .ok (values, ⟨tokens.drop u.length, t⟩) := by
  induction h generalizing tokens t with
  | nil =>
    obtain ⟨⟨_, _, _⟩, _, rfl, rfl, -⟩ := List.map_eq_cons_iff.1 htokens
    rfl
  | integer n _ ih =>
    obtain ⟨⟨_, _, _⟩, tokens, rfl, rfl, hrest⟩ := List.map_eq_cons_iff.1 htokens
    rw [elementsFrom, ih hrest, bind_assoc]
    rfl
  | name n _ ih =>
    obtain ⟨⟨_, _, _⟩, tokens, rfl, rfl, hrest⟩ := List.map_eq_cons_iff.1 htokens
    show t.enter (n, some []) >>= _ = (t.enter (n, some []) >>= _) >>= _
    rw [bind_assoc]
    refine bind_congr fun t => ?_
    rw [ih hrest, bind_assoc]
    rfl

theorem vector_run {values : Shape} (h : Elements u values)
    (htokens : tokens.map Spanned.token = .leftAngle :: (u ++ [.rightAngle]) ++ rest)
    (t : SymbolTable) : vector.run ⟨tokens, t⟩ =
      t.enterAll values.declarations >>= fun t => .ok (values, ⟨tokens.drop (u.length + 2), t⟩) := by
  have hopen := expect_run (s := ⟨tokens, t⟩) (t := .leftAngle) (by simp [htokens])
  have hinner : (tokens.drop 1).map Spanned.token = u ++ .rightAngle :: rest := by
    rw [List.map_drop, htokens]
    simp
  rw [vector, StateT.run_bind, hopen]
  show elementsFrom (tokens.drop 1) t >>= _ = _
  rw [elementsFrom_eq h hinner, bind_assoc]
  refine bind_congr fun t => ?_
  have hclose := expect_run (s := ⟨(tokens.drop 1).drop u.length, t⟩) (t := .rightAngle)
    (by simp [List.map_drop, htokens])
  show StateT.run (expect .rightAngle >>= fun _ => pure values) _ = _
  rw [StateT.run_bind, hclose, List.drop_drop, List.drop_drop, Nat.add_comm 1]
  rfl

theorem literal_run {values : Shape} (h : Elements u values)
    (htokens : tokens.map Spanned.token = .leftAngle :: (u ++ [.rightAngle]) ++ rest)
    (t : SymbolTable) : literal.run ⟨tokens, t⟩ =
      (Phrase.vector values).build t >>= fun r => .ok (r.1, ⟨tokens.drop (u.length + 2), r.2⟩) := by
  rw [literal, StateT.run_bind, vector_run h htokens, Phrase.build, bind_assoc, bind_assoc]
  refine bind_congr fun t => ?_
  rw [Grow.fresh_run, bind_assoc]
  have hrun : ∀ table : Except Error SymbolTable, (do
      set (State.mk (tokens.drop (u.length + 2)) (← table))
      return Expr.array (t.freshName .array) none : Reading Expr).run
        ⟨tokens.drop (u.length + 2), t⟩ =
      ((fun t' => (t.freshName .array, t')) <$> table) >>= fun r =>
        .ok (.array r.1 none, ⟨tokens.drop (u.length + 2), r.2⟩) := by
    intro table
    cases table <;> rfl
  exact hrun _

theorem declare_run (name : String) (shape : Option Shape) (t : SymbolTable) :
    (declare name shape).run ⟨tokens, t⟩ =
      t.insert name (.array shape none) >>= fun t => .ok ((), ⟨tokens, t⟩) := by
  have hrun : ∀ table : Except Error SymbolTable,
      (do set (State.mk tokens (← table)) : Reading Unit).run ⟨tokens, t⟩ =
        table >>= fun t => .ok ((), ⟨tokens, t⟩) := by
    intro table
    cases table <;> rfl
  exact hrun _

theorem declaration_run_bare (name : String) (h : (tokens.map Spanned.token).head? ≠ some .caret)
    (t : SymbolTable) : (declaration name).run ⟨tokens, t⟩ =
      t.enter (name, none) >>= fun t => .ok ((), ⟨tokens, t⟩) := by
  rw [declaration, run_peek_bind, if_neg h, SymbolTable.enter]
  show StateT.run (if (!t.contains name) = true then _ else _) _ = _
  cases t.contains name with
  | false => exact declare_run name none t
  | true => rfl

theorem declaration_run_shaped (name : String) {shape : Shape} (h : Elements u shape)
    (htokens : tokens.map Spanned.token = .caret :: .leftAngle :: (u ++ [.rightAngle]) ++ rest)
    (t : SymbolTable) : (declaration name).run ⟨tokens, t⟩ =
      t.enterAll shape.declarations >>= fun t => t.enter (name, some shape) >>= fun t =>
        .ok ((), ⟨tokens.drop (u.length + 3), t⟩) := by
  have hvector : (tokens.drop 1).map Spanned.token = .leftAngle :: (u ++ [.rightAngle]) ++ rest := by
    rw [List.map_drop, htokens]
    rfl
  rw [declaration, run_peek_bind, if_pos (by simp [htokens]), run_skip_bind, StateT.run_bind,
    vector_run h hvector, bind_assoc, List.drop_drop, Nat.add_comm 1]
  exact bind_congr fun t => declare_run name (some shape) t

/-- A phrase has a first token. It is no dot, and it leads only phrases that are no primaries. -/
theorem Derives.exists_head {extent : List Token → List Token → Prop}
    (h : Derives extent X u rest p) : ∃ t v, u = t :: v ∧ t ≠ .dot ∧
      (X = .primary → leadingOperator? t = none) := by
  induction h with
  | lift hX _ ih =>
    obtain ⟨t, v, rfl, ht, -⟩ := ih
    refine ⟨t, v, rfl, ht, ?_⟩
    rintro rfl
    cases hX
  | join hX _ _ _ ihl _ =>
    obtain ⟨t, v, rfl, ht, -⟩ := ihl
    refine ⟨t, _, rfl, ht, ?_⟩
    rintro rfl
    cases hX
  | leading ht => exact ⟨_, _, rfl, by cases ht <;> simp, by simp⟩
  | paren => exact ⟨_, _, rfl, by simp, fun _ => rfl⟩
  | vector => exact ⟨_, _, rfl, by simp, fun _ => rfl⟩
  | name => exact ⟨_, _, rfl, by simp, fun _ => rfl⟩
  | declared => exact ⟨_, _, rfl, by simp, fun _ => rfl⟩

theorem Leads.leadingOperator?_eq {t : Token} (h : Leads t op) : leadingOperator? t = some op := by
  cases h <;> rfl

theorem Holds.next_eq (h : Holds X Y) : X.next = Y := by
  cases h <;> rfl

theorem unary_run_leading {token : Token} (hhead : (tokens.map Spanned.token).head? = some token)
    (ht : Leads token op) : (reader (depth + 1) .unary).run ⟨tokens, t⟩ =
      (reader depth .expr).run ⟨tokens.drop 1, t⟩ >>= fun r => .ok (.unary op none r.1, r.2) := by
  show (unary (depth + 1)).run _ = _
  rw [unary, run_peek_bind, hhead, Option.bind_some, ht.leadingOperator?_eq]
  rfl

theorem unary_run_primary {token : Token} (hhead : (tokens.map Spanned.token).head? = some token)
    (ht : leadingOperator? token = none) :
    (reader (depth + 1) .unary).run ⟨tokens, t⟩ = (reader (depth + 1) .primary).run ⟨tokens, t⟩ := by
  rw [reader, unary, run_peek_bind, hhead, Option.bind_some, ht]
  rfl

theorem primary_run_paren (hhead : (tokens.map Spanned.token).head? = some .leftParen) :
    (reader depth .primary).run ⟨tokens, t⟩ =
      (reader (depth - 1) .expr).run ⟨tokens.drop 1, t⟩ >>= fun r =>
        (expect .rightParen).run r.2 >>= fun r' => .ok (r.1, r'.2) := by
  show (primary (reader (depth - 1) .expr)).run _ = _
  rw [primary, run_peek_bind, hhead]
  rfl

theorem primary_run_vector (hhead : (tokens.map Spanned.token).head? = some .leftAngle) :
    (reader depth .primary).run ⟨tokens, t⟩ = literal.run ⟨tokens, t⟩ := by
  rw [reader, primary, run_peek_bind, hhead]

theorem primary_run_name {n : String} (hhead : (tokens.map Spanned.token).head? = some (.ident n)) :
    (reader depth .primary).run ⟨tokens, t⟩ =
      (declaration n).run ⟨tokens.drop 1, t⟩ >>= fun r => .ok (.array n none, r.2) := by
  rw [reader, primary, run_peek_bind, hhead]
  rfl

/-- Tokens that a phrase inside the category does not go on with: they start with no tighter operator,
and not with a caret. -/
structure Tight (X : Category) (rest : List Token) : Prop where
  noOp : ∀ Z : Category, X.rank < Z.rank → Z.operator? rest = none
  noCaret : rest.head? ≠ some .caret

theorem Tight.next (h : Tight X rest) (hX : Holds X Y) : Tight Y rest :=
  ⟨fun Z hlt => h.noOp Z (by rw [hX.rank_eq] at hlt; omega), h.noCaret⟩

theorem Tight.operator? (h : Tight X rest) (hX : Holds X Y) : Y.operator? rest = none :=
  h.noOp Y (by rw [hX.rank_eq]; omega)

theorem Joins.tight (h : Joins X o op) (v : List Token) : Tight X (o ++ v) :=
  ⟨fun _ hlt => h.operator?_tighter hlt _, h.head_ne_caret _⟩

/-- The reader of the category passes over the tokens `u` and builds the phrase. -/
def Passes (depth : Nat) (X : Category) (tokens : List Spanned) (u : List Token) (p : Phrase) : Prop :=
  ∀ t, (reader depth X).run ⟨tokens, t⟩ =
    p.build t >>= fun r => .ok (r.1, ⟨tokens.drop u.length, r.2⟩)

/-- The reader of the category passes over the tokens `u` and builds the phrase, and then goes on with
the operators of the category among the tokens `rest`. -/
def PassesOperand (depth : Nat) (X : Category) (tokens : List Spanned) (u rest : List Token)
    (p : Phrase) : Prop :=
  ∃ rounds, rest.length ≤ rounds ∧ ∀ t, (reader depth X).run ⟨tokens, t⟩ =
    p.build t >>= fun r => (proceed depth X rounds r.1).run ⟨tokens.drop u.length, r.2⟩

/-- The reader is done before tokens that are no operator of the category. -/
theorem PassesOperand.passes (h : PassesOperand depth X tokens u rest p)
    (htokens : tokens.map Spanned.token = u ++ rest) (hrest : X.operator? rest = none) :
    Passes depth X tokens u p := by
  obtain ⟨rounds, -, hread⟩ := h
  intro t
  rw [hread]
  refine bind_congr fun r => proceed_done ?_ r.1
  rw [List.map_drop, htokens, List.drop_left]
  exact hrest

/-- Categories without operators are done at once. -/
theorem Passes.operand (h : Passes depth X tokens u p) (hX : X.operator? = fun _ => none) :
    PassesOperand depth X tokens u rest p := by
  refine ⟨rest.length, Nat.le_refl _, fun t => ?_⟩
  rw [h]
  exact bind_congr fun r => (proceed_done (by rw [hX]) r.1).symm

/-- A phrase of the next tighter category is a first operand. -/
theorem Passes.first (hX : Holds X Y) (hne : X ≠ .unary)
    (htokens : tokens.map Spanned.token = u ++ rest) (h : Passes depth Y tokens u p) :
    PassesOperand depth X tokens u rest p := by
  have hrest : (tokens.drop u.length).map Spanned.token = rest := by
    rw [List.map_drop, htokens, List.drop_left]
  refine ⟨rest.length, Nat.le_refl _, fun t => ?_⟩
  rw [reader_chain hX hne, chain, StateT.run_bind, h, bind_assoc]
  refine bind_congr fun r => ?_
  rw [proceed, hX.next_eq, ← hrest, List.length_map]
  rfl

/-- The reader of a first operand goes on with an operator and a second one, which makes a first operand
again: a round is spent. -/
theorem PassesOperand.join {l r : Phrase} (hX : Holds X Y) (hop : Joins X o op)
    (hv : (v ++ rest).head? ≠ some .dot)
    (htokens : tokens.map Spanned.token = u ++ (o ++ (v ++ rest)))
    (hl : PassesOperand depth X tokens u (o ++ (v ++ rest)) l)
    (hr : Passes depth Y ((tokens.drop u.length).drop o.length) v r) :
    PassesOperand depth X tokens (u ++ (o ++ v)) rest (.binary op l r) := by
  obtain ⟨rounds, hrounds, hleft⟩ := hl
  have hpos := hop.length_pos
  simp only [List.length_append] at hrounds
  obtain ⟨rounds, rfl⟩ := Nat.exists_eq_add_of_le' (Nat.le_trans (Nat.succ_le_of_lt hpos)
    (Nat.le_trans (Nat.le_add_right _ _) hrounds))
  have hfound : X.operator? ((tokens.drop u.length).map Spanned.token) = some (op, o.length) := by
    rw [List.map_drop, htokens, List.drop_left]
    exact hop.operator?_eq hv
  refine ⟨rounds, by omega, fun t => ?_⟩
  rw [hleft, Phrase.build, bind_assoc]
  refine bind_congr fun a => ?_
  rw [proceed_operator hfound, hX.next_eq, hr, bind_assoc, bind_assoc]
  refine bind_congr fun b => ?_
  rw [List.drop_drop, List.drop_drop, List.length_append, List.length_append]
  rfl

theorem passes_leading {token : Token} (htokens : tokens.map Spanned.token = token :: u ++ rest)
    (ht : Leads token op) (h : Passes depth .expr (tokens.drop 1) u p) :
    Passes (depth + 1) .unary tokens (token :: u) (.unary op p) := by
  intro t
  rw [unary_run_leading (by rw [htokens]; rfl) ht, h, Phrase.build, bind_assoc, bind_assoc]
  refine bind_congr fun r => ?_
  rw [List.length_cons, List.drop_drop, Nat.add_comm 1]
  rfl

theorem passes_paren
    (htokens : tokens.map Spanned.token = .leftParen :: (u ++ [.rightParen]) ++ rest)
    (h : Passes (depth - 1) .expr (tokens.drop 1) u p) :
    Passes depth .primary tokens (.leftParen :: (u ++ [.rightParen])) p := by
  have hclose : ((tokens.drop 1).drop u.length).map Spanned.token = .rightParen :: rest := by
    rw [List.map_drop, List.map_drop, htokens]
    simp
  intro t
  rw [primary_run_paren (by rw [htokens]; rfl), h, bind_assoc]
  refine bind_congr fun r => ?_
  show (expect .rightParen).run _ >>= _ = _
  rw [expect_run (by rw [hclose]; rfl), List.drop_drop, List.drop_drop]
  simp only [List.length_cons, List.length_append, List.length_nil, Nat.add_comm 1]
  rfl

theorem passes_vector {values : Shape} (he : Elements u values)
    (htokens : tokens.map Spanned.token = .leftAngle :: (u ++ [.rightAngle]) ++ rest) :
    Passes depth .primary tokens (.leftAngle :: (u ++ [.rightAngle])) (.vector values) := by
  intro t
  rw [primary_run_vector (by rw [htokens]; rfl), literal_run he htokens]
  simp

theorem passes_name {n : String} (htokens : tokens.map Spanned.token = [.ident n] ++ rest)
    (hrest : rest.head? ≠ some .caret) : Passes depth .primary tokens [.ident n] (.name n) := by
  intro t
  rw [primary_run_name (n := n) (by rw [htokens]; rfl),
    declaration_run_bare n (by rw [List.map_drop, htokens]; exact hrest), Phrase.build, bind_assoc,
    bind_assoc]
  rfl

theorem passes_declared {n : String} {shape : Shape} (he : Elements u shape)
    (htokens : tokens.map Spanned.token =
      .ident n :: .caret :: .leftAngle :: (u ++ [.rightAngle]) ++ rest) :
    Passes depth .primary tokens (.ident n :: .caret :: .leftAngle :: (u ++ [.rightAngle]))
      (.declared n shape) := by
  have hshape : (tokens.drop 1).map Spanned.token =
      .caret :: .leftAngle :: (u ++ [.rightAngle]) ++ rest := by
    rw [List.map_drop, htokens]
    rfl
  have hdrop : (tokens.drop 1).drop (u.length + 3) =
      tokens.drop (Token.ident n :: .caret :: .leftAngle :: (u ++ [.rightAngle])).length := by
    simp
  intro t
  rw [primary_run_name (n := n) (by rw [htokens]; rfl), declaration_run_shaped n he hshape,
    Phrase.build, bind_assoc, bind_assoc]
  refine bind_congr fun t => ?_
  rw [bind_assoc, bind_assoc, hdrop]
  rfl

/-- **What is derivable is read.** The reader of a category passes over a phrase that the tokens after
it cannot go on with, builds it, and is then before the next operator of the category. -/
theorem Derives.read (h : Derives (fun _ => NoOp) X u rest p) {depth : Nat} {tokens : List Spanned}
    (htokens : tokens.map Spanned.token = u ++ rest) (hrest : Tight X rest)
    (hdepth : u.length ≤ depth) : PassesOperand depth X tokens u rest p := by
  induction h generalizing depth tokens with
  | @lift X Y u rest p hX hp ih =>
    have hpasses := (ih htokens (hrest.next hX) hdepth).passes htokens (hrest.operator? hX)
    by_cases hunary : X = .unary
    · subst hunary
      cases hX
      obtain ⟨token, v, rfl, -, htoken⟩ := hp.exists_head
      obtain ⟨depth, rfl⟩ := Nat.exists_eq_add_of_le' (Nat.le_trans (Nat.succ_pos _) hdepth)
      refine Passes.operand (fun t => ?_) rfl
      rw [unary_run_primary (by rw [htokens]; rfl) (htoken rfl), hpasses]
    · exact hpasses.first hX hunary htokens
  | @join X Y u o v rest op l r hX hop hl hr ihl ihr =>
    simp only [List.length_append, List.append_assoc] at htokens hdepth
    obtain ⟨token, w, hv, htoken, -⟩ := hr.exists_head
    have hoperand : ((tokens.drop u.length).drop o.length).map Spanned.token = v ++ rest := by
      rw [List.map_drop, List.map_drop, htokens, List.drop_left, List.drop_left]
    have hul : u.length ≤ depth := by omega
    have hvl : v.length ≤ depth := by omega
    exact .join hX hop (by simp [hv, htoken]) htokens (ihl htokens (hop.tight _) hul)
      ((ihr hoperand (hrest.next hX) hvl).passes hoperand (hrest.operator? hX))
  | @leading token op u rest p ht _ hext ih =>
    obtain ⟨depth, rfl⟩ := Nat.exists_eq_add_of_le' (Nat.le_trans (Nat.succ_pos _) hdepth)
    have hoperand : (tokens.drop 1).map Spanned.token = u ++ rest := by
      rw [List.map_drop, htokens]
      rfl
    have hread := ih hoperand ⟨fun Z _ => hext Z, hrest.noCaret⟩ (Nat.le_of_succ_le_succ hdepth)
    exact (passes_leading htokens ht (hread.passes hoperand (hext _))).operand rfl
  | @paren u rest p _ ih =>
    simp only [List.length_cons, List.length_append, List.length_nil] at hdepth
    have hinner : (tokens.drop 1).map Spanned.token = u ++ .rightParen :: rest := by
      rw [List.map_drop, htokens]
      simp
    have hclosing := closing_rightParen rest
    have hul : u.length ≤ depth - 1 := by omega
    have hread := ih hinner ⟨fun Z _ => hclosing.noOp Z, by simp⟩ hul
    exact (passes_paren htokens (hread.passes hinner (hclosing.noOp _))).operand rfl
  | vector he => exact (passes_vector he htokens).operand rfl
  | name n => exact (passes_name htokens hrest.noCaret).operand rfl
  | declared n he => exact (passes_declared he htokens).operand rfl

end

/-- The context of an expression is built from its derivation. -/
theorem ofTokens_eq {spanned : List Spanned}
    (h : Derives Farthest .expr (spanned.map Spanned.token) [] p) :
    Context.ofTokens spanned = p.build .empty >>= fun r => .ok ⟨r.1, r.2⟩ := by
  have hread := (derives_farthest_iff.1 h).imp fun _ hrest => Closing.noOp hrest
  have hwhole : spanned.map Spanned.token = spanned.map Spanned.token ++ [] := by simp
  have hdepth : (spanned.map Spanned.token).length ≤ spanned.length := by simp
  have hnoOp : NoOp [] := Closing.noOp (.inl rfl)
  have hpasses := (hread.read hwhole ⟨fun Z _ => hnoOp Z, by simp⟩ hdepth).passes hwhole (hnoOp _)
  rw [Context.ofTokens, whole]
  show ((reader spanned.length .expr).run _ >>= _) >>= _ = _
  rw [hpasses, bind_assoc, bind_assoc]
  refine bind_congr fun r => ?_
  have hnil : (spanned.drop (spanned.map Spanned.token).length) = [] := by simp
  rw [hnil]
  rfl

end Grammar

end PsiCalculus
