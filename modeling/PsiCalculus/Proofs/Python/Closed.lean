import PsiCalculus.Pipeline
import PsiCalculus.Proofs.Python.Names

/-!
# Functions that are closed

Reduction keeps the arrays of a tree (`Context.reduce_data`): what it adds are index vectors. So the
names that a function mentions without binding them are the vector literals of its source that stand
for arrays of their own, and there are no other ones (`compile_closed`).
-/

namespace PsiCalculus

open SymbolTable Python

/-! ## Arrays on the way -/

section
variable {t t' : SymbolTable} {e e' v X : Expr} {s : Option Shape} {payload : Payload}

namespace Expr

/-- The arrays of a node depend on those of its operands only. -/
theorem data_congr {op : Operator} {s' : Option Shape} {es es' : List Expr}
    (h : List.Forall₂ (fun e e' => e'.data = e.data) es es') :
    (node op s' payload es').data = (node op s payload es).data := by
  have hmap : es'.map data = es.map data := by
    induction h with
    | nil => rfl
    | cons he _ ih => rw [List.map_cons, List.map_cons, he, ih]
  rw [data, data, dataAll_eq, dataAll_eq, hmap]

theorem data_pair {op : Operator} {l r : Expr} (hvectors : op.vectors = 0)
    (hown : ownData op payload = []) : (node op s payload [l, r]).data = l.data ++ r.data := by
  simp [data_node, hown, hvectors]

theorem data_single {op : Operator} (hvectors : op.vectors = 0) (hown : ownData op payload = []) :
    (node op s payload [X]).data = X.data := by
  simp [data_node, hown, hvectors]

/-- Index vectors and orders of axes are passed over. -/
theorem data_second {op : Operator} (hvectors : op.vectors = 1) (hown : ownData op payload = []) :
    (node op s payload [v, X]).data = X.data := by
  simp [data_node, hown, hvectors]

theorem data_psi : (Expr.binary .psi s v X).data = X.data := data_second rfl rfl

end Expr

/-- Shapes change no arrays. -/
theorem Infers.data {cs : List Check} (h : Infers t e e' cs) : e'.data = e.data := by
  induction h with
  | leaf => exact Expr.data_congr .nil
  | unary _ _ _ ih => exact Expr.data_congr (.cons ih .nil)
  | binary _ _ _ _ _ ihl ihr => exact Expr.data_congr (.cons ihl (.cons ihr .nil))
  | scalar _ _ ih => exact ih.trans (Expr.data_single rfl rfl).symm

theorem PushesOperand.data (h : PushesOperand t s v X e t') : e.data = X.data := by
  cases h with
  | leaf => rfl
  | scalar | array => exact Expr.data_psi

/-- **A rewrite keeps the arrays.** -/
theorem Pushes.data (h : Pushes t s v X e t') : e.data = X.data := by
  cases h with
  | assign =>
    rw [Expr.binary, Expr.data_pair rfl rfl, Expr.data_psi, Expr.data_psi, Expr.data_pair rfl rfl]
  | psi | permute => rw [Expr.data_psi, Expr.data_second rfl rfl]
  | transpose => rw [Expr.data_psi, Expr.data_single rfl rfl]
  | @elementwise op _ p _ _ _ _ _ _ hop hl hr =>
    have hplain : op.vectors = 0 ∧ ∀ payload, Expr.ownData op payload = [] := by
      cases op with
      | arith | compare | logic => exact ⟨rfl, fun payload => by cases payload <;> rfl⟩
      | _ => cases hop
    rw [Expr.binary, Expr.data_pair hplain.1 (hplain.2 _), hl.data, hr.data,
      Expr.data_pair hplain.1 (hplain.2 _)]
  | outer =>
    rw [Expr.binary, Expr.data_pair rfl rfl, Expr.data_psi, Expr.data_psi, Expr.data_pair rfl rfl]
  | inner =>
    rw [Expr.data_single rfl rfl, Expr.binary, Expr.data_pair rfl rfl, Expr.data_psi, Expr.data_psi,
      Expr.data_pair rfl rfl]
  | reduce => rw [Expr.data_single rfl rfl, Expr.data_psi, Expr.data_single rfl rfl]

end

/-- A tree before and after a traversal that keeps the indices and the arrays. -/
structure DataRel (c c' : Context) : Prop where
  indices : IndexRel c c'
  data : c'.tree.data = c.tree.data

theorem preserves_data {t₀ : SymbolTable} :
    Traversal.Preserves Rule.rewrite Grows (IndexInv t₀) DataRel where
  refl hc := ⟨preserves_indices.refl hc, rfl⟩
  trans h₁ h₂ := ⟨h₁.indices.trans h₂.indices, h₂.data.trans h₁.data⟩
  grows h := h.indices.grows
  mono := preserves_indices.mono
  step {c c'} hc h := by
    obtain ⟨hinv, hrel⟩ := step_indices hc h
    refine ⟨hinv, hrel, ?_⟩
    have hop := Rule.rewrite_op h
    obtain ⟨tree, t⟩ := c
    obtain ⟨s, v, X, shape, rfl, -⟩ := hc.tree.indexed hc.base.declared hop
    exact (Rule.rewrite_psi h).data.trans Expr.data_psi.symm
  child := preserves_indices.child
  node {c es t} hc hnone h := by
    refine ⟨preserves_indices.node hc hnone (h.imp DataRel.indices), ?_⟩
    obtain ⟨⟨op, shape, payload, children⟩, table⟩ := c
    exact Expr.data_congr (h.forall₂ DataRel.data)

/-- **Reduction keeps the arrays** of a source. -/
theorem Context.reduce_data {c s r : Context} {limit : Nat} (hc : c.Raw)
    (hs : c.inferShapes = .ok s) (hr : s.reduce limit = .ok r) :
    r.consequent.data = c.tree.data := by
  obtain ⟨e, cs, ds, hshaped⟩ := Context.inferShapes_ok hc hs
  have hpart := hshaped.infers.part
  have ho := hshaped.over hc.declared
  obtain ⟨shape, u, t₁, t₂, -, hrel, -⟩ := Context.reduce_rel preserves_data hpart.op_ne_condition
    hshaped.wrapped hr (fun h => h.indexInv ho hpart)
    (fun _ hrel => hrel.indices.op_ne_condition (by simp [Expr.binary]))
  exact hrel.data.trans (Expr.data_psi.trans hshaped.infers.data)

/-! ## From the text to the function -/

namespace LoopNest

variable {p : Python}

/-- A loop that has lines has a body that has lines. -/
theorem Nested.body_ok {t : SymbolTable} {shape : Shape} {body nest : Expr} {indices : List String}
    (h : Nested t shape body indices nest) : ∀ {depth lines}, p.statement depth nest = .ok lines →
      ∃ depth lines, p.statement depth body = .ok lines := by
  induction h with
  | nil => exact fun hlines => ⟨_, _, hlines⟩
  | cons _ _ _ ih =>
    intro depth lines hlines
    rw [statement_loop] at hlines
    obtain ⟨bodies, hbodies, -⟩ := except_bind_ok.1 hlines
    obtain ⟨inner, hinner⟩ := statements_ok hbodies (.head _)
    exact ih hinner

theorem Lowers.body_op {guards : Bool} {c f : Context} {parts : Parts} (h : Lowers guards c parts f) :
    parts.body.op = .assign := by
  cases h.target with
  | own hop _ _ hbody => exact hbody ▸ hop
  | fresh _ hstore =>
    obtain ⟨v, a, t₁, -, -, hbody⟩ := (store_ok hstore).exists_vector
    rw [hbody]
    rfl

/-- The assignment inside the loops of a function that has a text is written. -/
theorem Lowers.exists_body {guards literals : Bool} {c f : Context} {parts : Parts}
    {name text : String} (h : Lowers guards c parts f) (htext : program name literals f = .ok text) :
    ∃ target value, Emits ⟨f.table, literals⟩ parts.body (.assign target value) := by
  obtain ⟨lines, hlines⟩ := statement_of_program h.tree htext (e := parts.nest) (by simp)
  obtain ⟨-, hnested⟩ := loops_ok h.nest
  obtain ⟨depth, lines, hlines⟩ := hnested.body_ok hlines
  exact exists_emits_assign h.body_op hlines

end LoopNest

/-- **A function is closed but for vector literals.** With known scalars as literals, the text is that of
a function all of whose names are bound where they are mentioned, apart from the vector literals of the
source that stand for arrays of their own. A source without such literals has a closed function. -/
theorem compile_closed {config : Config} {source : String} {result : Compilation}
    (hliterals : config.literals = true) (h : compile config source = .ok result) :
    ∃! fn, Renders true result.lowered fn ∧ result.python = fn.text config.functionName ∧
      fn.ClosedOver (globals ++ result.parsed.tree.literals) := by
  obtain ⟨c, hc, h⟩ := except_bind_ok.1 h
  obtain ⟨s, hs, h⟩ := except_bind_ok.1 h
  obtain ⟨r, hr, h⟩ := except_bind_ok.1 h
  obtain ⟨f, hf, h⟩ := except_bind_ok.1 h
  obtain ⟨text, htext, h⟩ := except_bind_ok.1 h
  cases h
  rw [hliterals] at htext
  have hraw := Context.parse_raw hc
  obtain ⟨shape, hred⟩ := Context.reduce_ok hraw hs hr
  obtain ⟨parts, hparts⟩ := LoopNest.lower_ok hred.condition hf
  obtain ⟨target, value, hbody⟩ := hparts.exists_body htext
  obtain ⟨fn, hrenders, hclosed⟩ := hparts.emits hred hbody
  have hdata : r.consequent.literals = c.tree.literals :=
    congrArg (List.filter isGenerated) (Context.reduce_data hraw hs hr)
  refine ⟨fn, ⟨hrenders, ?_, hdata ▸ hclosed rfl⟩, fun fn' h => h.1.unique hrenders⟩
  exact Except.ok.inj (htext.symm.trans (hrenders.program_eq _))

/-- A vector literal that stands for an array of its own. -/
theorem compile_closed_literal : ∃ result fn, compile {} "<1 2> + A ^ <2>" = .ok result ∧
    result.parsed.tree.literals = ["_a0"] ∧ Renders true result.lowered fn ∧
    result.python = fn.text "moa_function" ∧ fn.ClosedOver (globals ++ ["_a0"]) := by
  have hrun : (do
      let result ← compile {} "<1 2> + A ^ <2>"
      return decide (result.parsed.tree.literals = ["_a0"])) = .ok true := by
    decide +kernel
  obtain ⟨result, hresult, hrun⟩ := except_bind_ok.1 hrun
  simp only [pure, Except.pure, Except.ok.injEq, decide_eq_true_eq] at hrun
  obtain ⟨fn, ⟨hrenders, htext, hclosed⟩, -⟩ := compile_closed rfl hresult
  exact ⟨result, fn, hresult, hrun, hrenders, htext, hrun ▸ hclosed⟩

theorem Python.Writes.mem_rank {p : Python} {s a b : Option Shape} {v : Expr} {name : String}
    {term : Term} (hname : p.atom (.named name) = .name name)
    (h : Writes p (.binary .psi s v (.unary .dim a (.array name b))) term) : name ∈ term.names := by
  cases h with
  | between hop => cases hop
  | psi _ _ _ hX =>
    cases hX with
    | dim hX =>
      cases hX with
      | array =>
        rw [Term.names_select, Term.names, Term.names, hname]
        exact List.mem_append_left _ (.tail _ (.head _))

/-- The rank of a vector literal mentions the literal, which nothing binds. -/
theorem compile_open_literal : ∃ result, compile {} "dim <1 2>" = .ok result ∧
    ∀ fn, Renders true result.lowered fn → ¬ fn.ClosedOver globals := by
  have hrun : (do
      let result ← compile {} "dim <1 2>"
      return decide (result.lowered.tree = Expr.node .function (some []) (.function [] "_a2")
        [.node .block none .none [.node .allocate (some []) (.name "_a2") [],
          .binary .assign (some [])
            (.binary .psi (some []) (.array "_a3" (some [.int 0])) (.array "_a2" (some [])))
            (.binary .psi (some []) (.array "_a1" (some [.int 0]))
              (.unary .dim (some []) (.array "_a0" (some [.int 2]))))]] ∧
        Python.atom ⟨result.lowered.table, true⟩ (.named "_a0") = Atom.name "_a0")) = .ok true := by
    decide +kernel
  obtain ⟨result, hresult, hrun⟩ := except_bind_ok.1 hrun
  simp only [pure, Except.pure, Except.ok.injEq, decide_eq_true_eq] at hrun
  obtain ⟨htree, hatom⟩ := hrun
  refine ⟨result, hresult, fun fn hfn hclosed => ?_⟩
  cases hfn with
  | intro htree' hes =>
    cases htree.symm.trans htree'
    -- the second statement is the assignment of the rank
    cases hes with
    | cons halloc hes =>
      cases halloc with
      | allocate =>
        cases hes with
        | cons hassign _ =>
          cases hassign with
          | assign _ hvalue =>
            have hscope : "_a0" ∈ globals ++ [] ++ ["_a2"] :=
              hclosed.1.2.1 "_a0" (Statement.value_names (hvalue.mem_rank hatom))
            exact absurd hscope (by decide)

end PsiCalculus
