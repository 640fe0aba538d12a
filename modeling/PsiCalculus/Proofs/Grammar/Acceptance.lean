import PsiCalculus.Proofs.Grammar.Reading

/-!
# Which sources have a context

The parser accepts the tokens of the grammar whose declarations are consistent, and nothing else
(`Context.parse_follows_grammar`). Both conditions are about the tokens alone: `declarations` reads off
them what a phrase declares, whatever its derivation (`Derives.declarations_eq`).
-/

namespace PsiCalculus

open SymbolTable

namespace Grammar

variable {extent : List Token → List Token → Prop} {X : Category} {u rest : List Token}
  {op : Operator} {p : Phrase}

/-! ## Declarations among tokens -/

/-- The integers and names up to the first other token. -/
def elementsOf : List Token → Shape
  | .integer n :: rest => .int n :: elementsOf rest
  | .ident n :: rest => .named n :: elementsOf rest
  | _ => []

/-- What tokens declare, from left to right: `N ^ <..>` the shape of `N`, a name between angles a
scalar, and `N` alone an array of unknown shape. -/
def declarations : List Token → Declarations
  | .leftAngle :: rest =>
    (elementsOf rest).declarations ++ declarations (rest.drop (elementsOf rest).length)
  | .ident n :: .caret :: .leftAngle :: rest =>
    (elementsOf rest).declarations ++
      (n, some (elementsOf rest)) :: declarations (rest.drop (elementsOf rest).length)
  | .ident n :: rest => (n, none) :: declarations rest
  | _ :: rest => declarations rest
  | [] => []
termination_by tokens => tokens.length
decreasing_by all_goals simp only [List.length_drop, List.length_cons]; omega

theorem Elements.length_eq {values : Shape} (h : Elements u values) : values.length = u.length := by
  induction h with
  | nil => rfl
  | integer _ _ ih | name _ _ ih => rw [List.length_cons, List.length_cons, ih]

theorem Elements.elementsOf_eq {values : Shape} (h : Elements u values) (rest : List Token) :
    elementsOf (u ++ .rightAngle :: rest) = values := by
  induction h with
  | nil => rfl
  | integer _ _ ih | name _ _ ih => rw [List.cons_append, elementsOf, ih]

theorem Joins.declarations_eq {o : List Token} (h : Joins X o op) (rest : List Token) :
    declarations (o ++ rest) = declarations rest := by
  cases h <;> simp [declarations]

theorem Leads.declarations_eq {t : Token} (h : Leads t op) (rest : List Token) :
    declarations (t :: rest) = declarations rest := by
  cases h <;> simp [declarations]

theorem Elements.drop_eq {values : Shape} (h : Elements u values) (rest : List Token) :
    (u ++ .rightAngle :: rest).drop values.length = .rightAngle :: rest := by
  rw [h.length_eq, List.drop_left]

/-- The declarations of a phrase are those of its tokens. -/
theorem Derives.declarations_eq (h : Derives extent X u rest p) (hrest : rest.head? ≠ some .caret) :
    declarations (u ++ rest) = p.declarations ++ declarations rest := by
  induction h with
  | lift _ _ ih => exact ih hrest
  | @join X Y u o v rest op l r _ hop _ _ ihl ihr =>
    rw [List.append_assoc, List.append_assoc, ihl (hop.head_ne_caret _), hop.declarations_eq,
      ihr hrest, Phrase.declarations, List.append_assoc]
  | leading ht _ _ ih =>
    rw [List.cons_append, ht.declarations_eq, ih hrest, Phrase.declarations]
  | @paren u rest p _ ih =>
    rw [List.cons_append, List.append_assoc, declarations, List.singleton_append, ih (by simp),
      declarations]
    all_goals simp
  | @vector u rest values he =>
    rw [List.cons_append, List.append_assoc, declarations, List.singleton_append, he.elementsOf_eq,
      he.drop_eq, declarations, Phrase.declarations]
    all_goals simp
  | @name n rest =>
    rw [List.singleton_append, declarations, Phrase.declarations, List.singleton_append]
    rintro rest' rfl
    exact hrest rfl
  | @declared n u rest shape he =>
    simp only [List.cons_append, List.append_assoc]
    rw [declarations, List.nil_append, he.elementsOf_eq, he.drop_eq, declarations, Phrase.declarations,
      List.append_assoc]
    · rfl
    all_goals simp

/-- A phrase takes no more symbols than it has tokens. -/
theorem Derives.symbols_le (h : Derives extent X u rest p) : p.symbols ≤ u.length := by
  induction h with
  | lift _ _ ih => exact ih
  | join _ _ _ _ ihl ihr =>
    simp only [Phrase.symbols, List.length_append]
    omega
  | leading _ _ _ ih =>
    simp only [Phrase.symbols, List.length_cons]
    omega
  | paren _ ih =>
    simp only [List.length_cons, List.length_append]
    omega
  | vector he => simp [Phrase.symbols, he.length_eq]
  | name => simp [Phrase.symbols]
  | declared _ he =>
    simp only [Phrase.symbols, he.length_eq, List.length_cons, List.length_append]
    omega

theorem Elements.ident_mem {values : Shape} (h : Elements u values) {d : String × Option Shape}
    (hd : d ∈ values.declarations) : .ident d.1 ∈ u := by
  induction h with
  | nil => simp [Shape.declarations, Shape.names] at hd
  | integer n _ ih => exact .tail _ (ih hd)
  | name n _ ih =>
    rcases List.mem_cons.1 hd with rfl | hd
    · exact .head _
    · exact .tail _ (ih hd)

/-- The names that a phrase declares are identifiers among its tokens. -/
theorem Derives.ident_mem (h : Derives extent X u rest p) {d : String × Option Shape}
    (hd : d ∈ p.declarations) : .ident d.1 ∈ u := by
  induction h with
  | lift _ _ ih => exact ih hd
  | join _ _ _ _ ihl ihr =>
    rcases List.mem_append.1 hd with hd | hd
    · exact List.mem_append_left _ (ihl hd)
    · exact List.mem_append_right _ (List.mem_append_right _ (ihr hd))
  | leading _ _ _ ih => exact .tail _ (ih hd)
  | paren _ ih => exact .tail _ (List.mem_append_left _ (ih hd))
  | vector he => exact .tail _ (List.mem_append_left _ (he.ident_mem hd))
  | name n =>
    cases List.mem_singleton.1 hd
    exact .head _
  | declared n he =>
    rcases List.mem_append.1 hd with hd | hd
    · exact .tail _ (.tail _ (.tail _ (List.mem_append_left _ (he.ident_mem hd))))
    · cases List.mem_singleton.1 hd
      exact .head _

/-! ## Acceptance -/

/-- An expression has a derivation in which the operands of leading operators go as far as they can. -/
theorem Derivable.exists_farthest (h : Derivable u) : ∃ p, Derives Farthest .expr u [] p := by
  obtain ⟨p, hp⟩ := h.closing
  exact ⟨p, hp.farthest⟩

theorem user_of_mem_declarations {spanned : List Spanned} (hplain : ∀ s ∈ spanned, s.token.Plain)
    (h : Derives extent X (spanned.map Spanned.token) rest p) :
    ∀ d ∈ p.declarations, isGenerated d.1 = false := by
  intro d hd
  obtain ⟨s, hs, htoken⟩ := List.mem_map.1 (h.ident_mem hd)
  exact hplain s hs d.1 htoken

theorem Derives.declarations_whole (h : Derives extent X u [] p) :
    declarations u = p.declarations := by
  have hsplit := h.declarations_eq (by simp)
  rwa [List.append_nil, declarations, List.append_nil] at hsplit

end Grammar

open Grammar

/-- The context of a source that tokenizes is built from the derivations in which operands of leading
operators go as far as they can. -/
theorem Context.parse_eq {source : String} {spanned : List Spanned} {p : Phrase}
    (hscan : Token.scan source = .ok spanned)
    (hp : Derives Farthest .expr (spanned.map Spanned.token) [] p) :
    Context.parse source = p.build .empty >>= fun r => .ok ⟨r.1, r.2⟩ := by
  rw [Context.parse, hscan]
  exact ofTokens_eq hp

section
variable {source : String} {spanned : List Spanned} {c : Context}

theorem Context.derivable_of_parse (hscan : Token.scan source = .ok spanned)
    (hc : Context.parse source = .ok c) : Derivable (spanned.map Spanned.token) := by
  obtain ⟨tokens, hs, hc⟩ := except_bind_ok.1 hc
  cases hscan.symm.trans hs
  obtain ⟨⟨tree, state⟩, hrun, -⟩ := except_bind_ok.1 hc
  exact whole_derivable hrun

theorem Context.build_of_parse {p : Phrase} (hscan : Token.scan source = .ok spanned)
    (hc : Context.parse source = .ok c)
    (hp : Derives Farthest .expr (spanned.map Spanned.token) [] p) :
    p.build .empty = .ok (c.tree, c.table) := by
  rw [Context.parse_eq hscan hp] at hc
  obtain ⟨r, hr, hc⟩ := except_bind_ok.1 hc
  cases hc
  exact hr

end

/-- **The parser follows the grammar.** A source that tokenizes has a context if and only if its tokens
are an expression of the grammar and declare no name with two shapes. (A source of more tokens than
there are words may run out of fresh names, and there is no other exception.) The tree is that of the
derivation in which the operands of leading operators go as far to the right as they can. -/
theorem Context.parse_follows_grammar {source : String} {spanned : List Spanned}
    (hscan : Token.scan source = .ok spanned) :
    (∀ c, Context.parse source = .ok c →
      Derivable (spanned.map Spanned.token) ∧
      (declarations (spanned.map Spanned.token)).Consistent) ∧
    (Derivable (spanned.map Spanned.token) → (declarations (spanned.map Spanned.token)).Consistent →
      Attains spanned.length (fun _ => True) (Context.parse source)) ∧
    ∀ c, Context.parse source = .ok c →
      (∃ p, Derives Farthest .expr (spanned.map Spanned.token) [] p) ∧
      ∀ p, Derives Farthest .expr (spanned.map Spanned.token) [] p →
        p.build .empty = .ok (c.tree, c.table) := by
  have hplain := Token.scanFrom_plain 0 _ hscan
  refine ⟨fun c hc => ?_, fun hd hconsistent => ?_, fun c hc => ?_⟩
  · have hd := derivable_of_parse hscan hc
    obtain ⟨p, hp⟩ := hd.exists_farthest
    rw [hp.declarations_whole]
    exact ⟨hd, Phrase.consistent_of_build (user_of_mem_declarations hplain hp)
      (build_of_parse hscan hc hp)⟩
  · obtain ⟨p, hp⟩ := hd.exists_farthest
    rw [hp.declarations_whole, Declarations.consistent_iff] at hconsistent
    have hle := hp.symbols_le
    rw [List.length_map] at hle
    rw [Context.parse_eq hscan hp]
    refine (p.build_attains (n := 0) .empty (user_of_mem_declarations hplain hp) hconsistent
      ⟨.empty, ?_⟩).bind fun r _ => .ok trivial
    show 0 + (p.symbols + 0) ≤ spanned.length
    omega
  · exact ⟨(derivable_of_parse hscan hc).exists_farthest, fun p hp => build_of_parse hscan hc hp⟩

/-- A leading operator takes the whole sum and the selection, and `n` is declared twice. -/
theorem Context.parse_follows_grammar_transpose : ∃ spanned c,
    Token.scan "tran A ^ <2 n> + B cat <n>" = .ok spanned ∧
    Context.parse "tran A ^ <2 n> + B cat <n>" = .ok c ∧
    Derivable (spanned.map Spanned.token) ∧
    (declarations (spanned.map Spanned.token)).Consistent ∧
    c.tree.op = .transpose ∧
    ∃ p, Derives Farthest .expr (spanned.map Spanned.token) [] p ∧
      p.build .empty = .ok (c.tree, c.table) := by
  have hrun : (do
      let _ ← Token.scan "tran A ^ <2 n> + B cat <n>"
      let c ← Context.parse "tran A ^ <2 n> + B cat <n>"
      return decide (c.tree.op = Operator.transpose)) = .ok true := by
    decide +kernel
  obtain ⟨spanned, hscan, hrun⟩ := except_bind_ok.1 hrun
  obtain ⟨c, hc, hrun⟩ := except_bind_ok.1 hrun
  simp only [pure, Except.pure, Except.ok.injEq, decide_eq_true_eq] at hrun
  obtain ⟨hsound, -, htree⟩ := Context.parse_follows_grammar hscan
  obtain ⟨⟨p, hp⟩, hbuild⟩ := htree c hc
  exact ⟨spanned, c, hscan, hc, (hsound c hc).1, (hsound c hc).2, hrun, p, hp, hbuild p hp⟩

end PsiCalculus
