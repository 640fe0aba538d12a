import PsiCalculus.Proofs.Shape.Guarding

/-!
# Guards at the root

Every tree of the grammar is judged: it has a shape, under a guard for the checks that wait, or there is
an error at one of its nodes (`Infer.judged_of_raw`). Inference over any table comes out like that
(`Judged.ends`).

* `Context.inferShapes_ok`: a context that is shaped is the tree of `Infers`, wrapped in a guard that
  holds under a valuation exactly if all the checks of `Infers` do.
-/

namespace PsiCalculus

open SymbolTable

theorem Operator.arity_of_leads {op : Operator} (h : op.leads = true) : op.arity = .fixed 1 := by
  cases op <;> cases h <;> rfl

theorem Operator.arity_of_joins {op : Operator} (h : op.joins = true) : op.arity = .fixed 2 := by
  cases op <;> cases h <;> rfl

theorem Operator.ne_condition_of_joins {op : Operator} (h : op.joins = true) : op ≠ .condition := by
  rintro rfl
  cases h

/-- No node of a shaped tree is a condition. -/
theorem Part.no_condition {t : SymbolTable} {e : Expr} (h : Part t e) :
    .condition ∉ e.operators := by
  induction h with
  | leaf => simp [Expr.array, Expr.operators, Expr.operatorsAll]
  | unary _ _ hlaw ih =>
    cases hlaw <;> simpa [Expr.unary, Expr.operators, Expr.operatorsAll] using ih
  | binary _ _ _ _ hlaw ihl ihr =>
    cases hlaw <;> simpa [Expr.binary, Expr.operators, Expr.operatorsAll] using ⟨ihl, ihr⟩

namespace Infer

/-! ## Judgements -/

/-- The verdict on a raw tree, put together from those on its operands and on the shape of its root. An
operand without a shape leaves the node without one, and the first such operand gives the error. -/
inductive Judged (t : SymbolTable) : Expr → Verdict Expr → Prop
  | leaf {name : String} {s : Symbol} {v : Verdict Shape} : t.get? name = some s →
      ComesTo t 0 (nodeShape (.array name none)) (fun shape ds => s.shape = some shape ∧ ds = []) v →
      Judged t (.array name none)
        ⟨v.deferred, (fun shape => .array name (some shape)) <$> v.result⟩
  | unary_fails {op : Operator} {e : Expr} {ds : List Check} {error : Error} : op.leads = true →
      Judged t e ⟨ds, .error error⟩ → Judged t (.unary op none e) ⟨ds, .error (error.located [0])⟩
  | scalar {op : ArithOp} {e e' : Expr} {ds : List Check} : Judged t e ⟨ds, .ok e'⟩ →
      e'.shape = some [] → Judged t (.unary (.reduce op) none e) ⟨ds, .ok e'⟩
  | unary {op : Operator} {e e' : Expr} {ds : List Check} {s : Shape} {v : Verdict Shape} :
      op.leads = true → Judged t e ⟨ds, .ok e'⟩ → e'.shape = some s →
      reducedScalar? (.unary op none e') = none →
      ComesTo t 0 (nodeShape (.unary op none e')) (fun shape ds => UnaryLaw op s shape ∧ ds = []) v →
      Judged t (.unary op none e)
        ⟨ds ++ v.deferred, (fun shape => .unary op (some shape) e') <$> v.result⟩
  | left_fails {op : Operator} {l r : Expr} {ds : List Check} {error : Error} : op.joins = true →
      Judged t l ⟨ds, .error error⟩ →
      Judged t (.binary op none l r) ⟨ds, .error (error.located [0])⟩
  | right_fails {op : Operator} {l r l' : Expr} {ds es : List Check} {error : Error} :
      op.joins = true → Judged t l ⟨ds, .ok l'⟩ → Judged t r ⟨es, .error error⟩ →
      Judged t (.binary op none l r) ⟨ds ++ es, .error (error.located [1])⟩
  | binary {op : Operator} {l r l' r' : Expr} {ds es : List Check} {a b : Shape}
      {v : Verdict Shape} : op.joins = true → Judged t l ⟨ds, .ok l'⟩ → Judged t r ⟨es, .ok r'⟩ →
      l'.shape = some a → r'.shape = some b →
      ComesTo t (2 * b.length) (nodeShape (.binary op none l' r')) (fun shape ds => ∃ checks,
        BinaryLaw (t.valueOf l') op a b shape checks ∧ Splits (Check.waits op) checks ds) v →
      Judged t (.binary op none l r)
        ⟨ds ++ es ++ v.deferred, (fun shape => .binary op (some shape) l' r') <$> v.result⟩

section
variable {t : SymbolTable} {e : Expr} {v : Verdict Expr}

/-- **Inference comes to the verdict.** -/
theorem Judged.ends (h : Judged t e v) : Ends t e v := by
  induction h with
  | leaf _ hv => exact .leaf hv.runs fun _ h => (nomatch h)
  | unary_fails hop _ ih => exact .unary_fails (Operator.arity_of_leads hop) ih
  | scalar _ hs ih => exact .scalar ih hs
  | unary hop _ _ hs hv ih =>
    exact .unary (Operator.arity_of_leads hop) ih hs hv.runs fun _ h => (nomatch h)
  | left_fails hop _ ih => exact .left_fails (Operator.arity_of_joins hop) ih
  | right_fails hop _ _ ihl ihr => exact .right_fails (Operator.arity_of_joins hop) ihl ihr
  | binary hop _ _ _ _ hv ihl ihr =>
    exact .binary (Operator.arity_of_joins hop) (Operator.ne_condition_of_joins hop) ihl ihr hv.runs
      fun _ h => (nomatch h)

/-- A tree that is given shapes is given them by the laws, and what is deferred stands for all that has
to be checked. -/
theorem Judged.infers (h : Judged t e v) : ∀ {e'}, v.result = .ok e' →
    ∃ cs, Infers t e e' cs ∧ v.deferred ⊆ cs ∧ Equally v.deferred cs := by
  induction h with
  | leaf hs hv =>
    intro e' he'
    obtain ⟨shape, hresult, rfl⟩ := Traversal.map_ok.1 he'
    obtain ⟨hshape, hnil⟩ := hv.ok shape hresult
    simp only [hnil]
    exact ⟨[], .leaf hs hshape, List.Subset.refl _, .refl _⟩
  | unary_fails | left_fails | right_fails => intro e' he'; cases he'
  | scalar _ hs ih =>
    intro e' he'
    cases he'
    obtain ⟨cs, hinfers, hsubset, hequally⟩ := ih rfl
    exact ⟨cs, .scalar hinfers hs, hsubset, hequally⟩
  | unary hop _ hs _ hv ih =>
    intro e' he'
    obtain ⟨shape, hresult, rfl⟩ := Traversal.map_ok.1 he'
    obtain ⟨hlaw, hnil⟩ := hv.ok shape hresult
    obtain ⟨cs, hinfers, hsubset, hequally⟩ := ih rfl
    simp only [hnil, List.append_nil]
    exact ⟨cs, .unary hinfers hs hlaw, hsubset, hequally⟩
  | binary hop _ _ ha hb hv ihl ihr =>
    intro e' he'
    obtain ⟨shape, hresult, rfl⟩ := Traversal.map_ok.1 he'
    obtain ⟨checks, hlaw, hsplits⟩ := hv.ok shape hresult
    obtain ⟨cs, hl, hsl, hel⟩ := ihl rfl
    obtain ⟨cs', hr, hsr, her⟩ := ihr rfl
    refine ⟨_, .binary hl hr ha hb hlaw, ?_, (hel.append her).append hsplits.equally⟩
    refine List.append_subset.2 ⟨List.append_subset.2 ⟨fun d hd => ?_, fun d hd => ?_⟩, fun d hd => ?_⟩
    · exact List.mem_append_left _ (List.mem_append_left _ (hsl hd))
    · exact List.mem_append_left _ (List.mem_append_right _ (hsr hd))
    · exact List.mem_append_right _ (hsplits.subset hd)

/-- **Every raw tree is judged.** -/
theorem judged_of_raw (ht : t.Declared) (he : e.Raw t) : ∃ v, Judged t e v := by
  induction he with
  | leaf hs =>
    obtain ⟨v, hv⟩ := nodeShape_leaf_decides hs
    exact ⟨_, .leaf hs hv⟩
  | @unary op e hop _ ih =>
    obtain ⟨⟨ds, error | e'⟩, h⟩ := ih
    · exact ⟨_, .unary_fails hop h⟩
    · obtain ⟨cs, hinfers, -⟩ := h.infers rfl
      obtain ⟨s, hs⟩ := hinfers.part.exists_shape
      cases hr : reducedScalar? (.unary op none e') with
      | some scalar =>
        cases op <;> simp [reducedScalar?, Expr.unary] at hr
        exact ⟨_, .scalar h hr.1⟩
      | none =>
        obtain ⟨v, hv⟩ := nodeShape_unary_decides (t := t) hop hs hr
        exact ⟨_, .unary hop h hs hr hv⟩
  | @binary op l r hop _ _ ihl ihr =>
    obtain ⟨⟨ds, error | l'⟩, hl⟩ := ihl
    · exact ⟨_, .left_fails hop hl⟩
    obtain ⟨⟨es, error | r'⟩, hr⟩ := ihr
    · exact ⟨_, .right_fails hop hl hr⟩
    obtain ⟨cs, hinfers, -⟩ := hl.infers rfl
    obtain ⟨cs', hinfers', -⟩ := hr.infers rfl
    obtain ⟨a, ha⟩ := hinfers.part.exists_shape
    obtain ⟨b, hb⟩ := hinfers'.part.exists_shape
    obtain ⟨v, hv⟩ := nodeShape_binary_decides hop ha hb hinfers.part.known (ht.value_dimension l')
      (hinfers.dimension ht ha) (hinfers'.dimension ht hb)
    exact ⟨_, .binary hop hl hr ha hb hv⟩

end

/-- What a traversal of the raw tree `e` from the table `t` arrived at. -/
structure Shaped (t₀ t : SymbolTable) (e : Expr) (c : Context) (e' : Expr) (cs ds : List Check) :
    Prop where
  infers : Infers t₀ e e' cs
  grows : GrowsArrays t c.table
  wrapped : Wrapped c.table e' c.tree ds
  subset : ds ⊆ cs
  equally : Equally ds cs

end Infer

/-! ## Shaped contexts -/

namespace Context

/-- The tree without the guard at its root. -/
def consequent (c : Context) : Expr := (Condition.split? c.tree).elim c.tree Prod.snd

/-- The guard at the root. -/
def guard? (c : Context) : Option Expr := (Condition.split? c.tree).map Prod.fst

/-- The value of the guard at the root, true if there is none. -/
def guardTest (c : Context) (ρ : Env) : Option Bool :=
  c.guard?.elim (some true) (Env.test c.table ρ)

end Context

/-- A guard that may be there is true exactly if its checks hold. -/
theorem GuardsAll.test_iff {t : SymbolTable} {g? : Option Expr} {ds : List Check}
    (h : GuardsAll t g?.toList ds) (ρ : Env) :
    g?.elim (some true) (Env.test t ρ) = some true ↔ ∀ d ∈ ds, d.Holds ρ := by
  cases g? with
  | none =>
    cases h
    simp
  | some g =>
    cases h with
    | cons hg hnil =>
      cases hnil
      rw [List.append_nil]
      exact hg.test_iff ρ

namespace Infer.Shaped

variable {t₀ t : SymbolTable} {e e' : Expr} {c : Context} {cs ds : List Check}

theorem consequent_eq (h : Shaped t₀ t e c e' cs ds) : c.consequent = e' :=
  h.wrapped.consequent h.infers.part.op_ne_condition

theorem guardTest_iff (h : Shaped t₀ t e c e' cs ds) (ρ : Env) :
    c.guardTest ρ = some true ↔ ∀ d ∈ ds, d.Holds ρ :=
  (h.wrapped.guards h.infers.part.op_ne_condition).test_iff ρ

theorem guardTest_isSome (h : Shaped t₀ t e c e' cs ds) {ρ : Env}
    (hb : ∀ d ∈ ds, (d.test ρ).isSome) : (c.guardTest ρ).isSome := by
  have hg := h.wrapped.guards h.infers.part.op_ne_condition
  unfold Context.guardTest Context.guard?
  cases hsplit : Condition.split? c.tree with
  | none => rfl
  | some p =>
    rw [hsplit] at hg
    cases hg with
    | cons hg hnil =>
      cases hnil
      rw [List.append_nil] at hb
      exact hg.test_isSome hb

end Infer.Shaped

theorem Context.inferShapes_eq (c : Context) :
    c.inferShapes = Traversal.postorderFrom Infer.shapeNode [] c.table c.tree := by
  unfold Context.inferShapes Traversal.postorder
  rw [Traversal.run_map]
  rfl

/-- The verdict on the tree of a context, and how inference follows it. -/
theorem Context.inferShapes_judged {c : Context} (hc : c.Raw) : ∃ v, Infer.Judged c.table c.tree v ∧
    Follows c.table (constantsOf v.deferred) v.result (Infer.Carries c.table v.deferred) []
      c.inferShapes := by
  obtain ⟨v, hv⟩ := Infer.judged_of_raw hc.declared hc.tree
  exact ⟨v, hv, c.inferShapes_eq ▸ hv.ends.follows [] c.table (.refl _)⟩

/-- **Shape inference loses no check**: a context that is shaped is the tree of `Infers` under a guard
that holds exactly where all checks do. -/
theorem Context.inferShapes_ok {c s : Context} (hc : c.Raw) (h : c.inferShapes = .ok s) :
    ∃ e' cs ds, Infer.Shaped c.table c.table c.tree s e' cs ds := by
  obtain ⟨v, hv, hfollows⟩ := Context.inferShapes_judged hc
  rw [h] at hfollows
  cases hfollows with
  | ok _ hresult hcarries =>
    obtain ⟨cs, hinfers, hsubset, hequally⟩ := hv.infers hresult
    exact ⟨_, cs, _, hinfers, hcarries.grows, hcarries.wrapped, hsubset, hequally⟩

end PsiCalculus
