import PsiCalculus.LoopNest
import PsiCalculus.Proofs.LoopNest.Arguments
import PsiCalculus.Proofs.WellScoped.Inference

/-!
# Lowering stays in scope

A function mentions its arguments, the scalars that name lengths, its result, the indices of its loops
with their ranges, and the expression it computes. Arguments, lengths and ranges are read off the
table, and the result and the vectors are entered before they are mentioned
(`LoopNest.stays_function`).
-/

namespace PsiCalculus

open SymbolTable Grow

/-! ## Names that are read off a table -/

namespace SymbolTable

variable {t : SymbolTable}

theorem Ordered.get?_of_mem (ht : t.Ordered) {name : String} {s : Symbol}
    (h : (name, s) ∈ t.entries) : t.get? name = some s := SymbolTable.get?_of_mem ht.nodup h

/-- The names that scalars mention are in the table. -/
theorem get?_of_mem_names {elements : Shape} (h : ∀ x ∈ elements, t.Scalar x) {name : String}
    (hn : name ∈ Shape.names elements) : ∃ s, t.get? name = some s := by
  obtain ⟨x, hx, hname⟩ := List.mem_filterMap.1 hn
  obtain ⟨n, rfl⟩ | ⟨other, s, rfl, hget, -⟩ := h x hx
  · cases hname
  · cases hname
    exact ⟨s, hget⟩

theorem Ordered.claims (ht : t.Ordered) {name : String} {s : Symbol} {names : List String}
    (hmem : (name, s) ∈ t.entries) (h : t.claims (name, s) = .ok names) :
    ∀ n ∈ names, ∃ s, t.get? n = some s := by
  have hget := ht.get?_of_mem hmem
  rw [SymbolTable.claims] at h
  intro n hn
  split at h
  · cases h
    cases hn
  · split at h
    · split at h
      · cases h
      · cases h
        refine get?_of_mem_names (fun x hx => ht.elements hget x ?_) (List.mem_filter.1 hn).1
        exact List.mem_append_right _ hx
    · split at h
      · cases h
        rw [List.mem_singleton.1 hn]
        exact ⟨s, hget⟩
      · cases h
        cases hn

/-- The arguments of a function are in the table. -/
theorem Ordered.arguments (ht : t.Ordered) {names : List String} (h : t.arguments = .ok names) :
    ∀ n ∈ names, ∃ s, t.get? n = some s := by
  obtain ⟨claimed, hclaimed, h⟩ := except_bind_ok.1 h
  cases h
  intro n hn
  have hn := mem_sortedNames.1 (List.mem_filter.1 hn).1
  obtain ⟨names, hnames, hn⟩ := List.mem_flatten.1 hn
  obtain ⟨⟨name, s⟩, hmem, hclaims⟩ := exists_of_mem_right (except_mapM_ok hclaimed) hnames
  exact ht.claims hmem hclaims n hn

/-- The free indices of a tree are scalars. -/
theorem Ordered.freeIndices (ht : t.Ordered) {e : Expr} {indices : List String}
    (h : Context.freeIndices ⟨e, t⟩ = .ok indices) : ∀ i ∈ indices, t.Scalar (.named i) := by
  obtain ⟨used, -, h⟩ := except_bind_ok.1 h
  cases h
  intro i hi
  obtain ⟨⟨name, s⟩, hmem, rfl⟩ := List.mem_map.1 hi
  obtain ⟨hmem, hindex⟩ := List.mem_filter.1 hmem
  simp only [Bool.and_eq_true, decide_eq_true_eq] at hindex
  exact .named (ht.get?_of_mem hmem) (ht.index hmem hindex.1.1)

end SymbolTable

namespace LoopNest

variable {t : SymbolTable}

/-! ## Checks -/

/-- The statements and conditions about the arguments are in scope. -/
structure Checks.InScope (t : SymbolTable) (checks : Checks) : Prop where
  ranks : ∀ e ∈ checks.ranks, e.InScope t
  lengths : ∀ e ∈ checks.lengths, e.InScope t
  assignments : ∀ e ∈ checks.assignments, e.InScope t

theorem Checks.InScope.mono {t' : SymbolTable} {checks : Checks} (h : Extends t t')
    (hc : checks.InScope t) : checks.InScope t' :=
  ⟨fun e he => (hc.ranks e he).mono h, fun e he => (hc.lengths e he).mono h,
    fun e he => (hc.assignments e he).mono h⟩

theorem forall_mem_concat {es : List Expr} {e : Expr} (hes : ∀ e ∈ es, e.InScope t)
    (he : e.InScope t) : ∀ e' ∈ es ++ [e], e'.InScope t :=
  List.forall_mem_append.2 ⟨hes, List.forall_mem_singleton.2 he⟩

theorem equal_scoped {l r : Expr} (hl : l.InScope t) (hr : r.InScope t) : (equal l r).InScope t :=
  .binary (by simp) hl hr

theorem stays_axisLength {argument : Expr} (ha : argument.InScope t) (rank axis : Nat) :
    Stays view t (axisLength argument rank axis) fun t' e => e.InScope t' :=
  (stays_vector (List.forall_mem_singleton.2 (.int t axis))).bind fun _ _ h₁ hv =>
    .pure fun t' ht => .binary (by simp) (hv.mono ht)
      (.unary (List.forall_mem_singleton.2 (.int t' rank)) (ha.mono (h₁.trans ht)))

theorem stays_checkAxis {argument : Expr} (ha : argument.InScope t) (rank axis : Nat)
    {checks : Checks} (hc : checks.InScope t) {x : Element} (hx : t.Scalar x) :
    Stays view t (checkAxis argument rank axis checks x) fun t' checks => checks.InScope t' := by
  cases x with
  | symbolic scalar =>
    obtain ⟨name, s, rfl, hget, -⟩ := hx.symbolic
    refine (stays_axisLength ha rank axis).bind fun t₁ length h₁ hl => ?_
    have hscalar : ∀ {t'}, Extends t₁ t' → (Expr.array name (some [])).InScope t' :=
      fun ht => .array ((h₁.trans ht).get? hget) (by simp)
    refine .ite (fun _ => .pure fun t' ht => ?_) fun _ => .pure fun t' ht => ?_
    · obtain ⟨hranks, hlengths, hassign⟩ := hc.mono (h₁.trans ht)
      exact ⟨hranks, forall_mem_concat hlengths (equal_scoped (hscalar ht) (hl.mono ht)), hassign⟩
    · obtain ⟨hranks, hlengths, hassign⟩ := hc.mono (h₁.trans ht)
      exact ⟨hranks, hlengths, forall_mem_concat hassign
        (.binary (by simp) (hscalar ht) (hl.mono ht))⟩
  | int n =>
    refine (stays_axisLength ha rank axis).bind fun t₁ length h₁ hl =>
      (stays_scalar n).bind fun t₂ expected h₂ hexpected => .pure fun t' ht => ?_
    obtain ⟨hranks, hlengths, hassign⟩ := hc.mono (h₁.trans (h₂.trans ht))
    exact ⟨hranks, forall_mem_concat hlengths
      (equal_scoped (hexpected.mono ht) (hl.mono (h₂.trans ht))), hassign⟩

theorem stays_checkAxes {argument : Expr} (rank : Nat) (shape : Shape) (ha : argument.InScope t)
    (axis : Nat) {checks : Checks} (hc : checks.InScope t) (hs : ∀ x ∈ shape, t.Scalar x) :
    Stays view t (checkAxes argument rank axis checks shape) fun t' checks => checks.InScope t' := by
  induction shape generalizing t axis checks with
  | nil => exact .pure fun _ ht => hc.mono ht
  | cons length rest ih =>
    exact (stays_checkAxis ha rank axis hc (hs length (.head _))).bind fun t₁ checks h₁ hc =>
      ih (ha.mono h₁) (axis + 1) hc fun x hx => (hs x (.tail _ hx)).mono h₁

theorem stays_checkArgument {checks : Checks} (hc : checks.InScope t) (name : String) :
    Stays view t (checkArgument checks name) fun t' checks => checks.InScope t' := by
  refine (stays_symbol name).bind fun t₁ s h₁ hs => ?_
  split
  · exact .pure fun _ ht => hc.mono (h₁.trans ht)
  · next shape hshape =>
    have hscalars := hs.1.shape_scalar hs.2 hshape
    have hargument : (Expr.array name (some shape)).InScope t₁ := .array hs.2 hscalars
    refine (stays_scalar _).bind fun t₂ rank h₂ hrank => ?_
    obtain ⟨hranks, hlengths, hassign⟩ := hc.mono (h₁.trans h₂)
    exact stays_checkAxes _ shape (hargument.mono h₂) 0 ⟨forall_mem_concat hranks
      (equal_scoped (.unary (by simp) (hargument.mono h₂)) hrank), hlengths, hassign⟩
      fun x hx => (hscalars x hx).mono h₂

theorem stays_checkArguments (names : List String) {checks : Checks} (hc : checks.InScope t) :
    Stays view t (checkArguments checks names) fun t' checks => checks.InScope t' := by
  induction names generalizing t checks with
  | nil => exact .pure fun _ ht => hc.mono ht
  | cons name rest ih => exact (stays_checkArgument hc name).bind fun _ _ _ hc => ih hc

theorem guard_scoped (kind : GuardKind) {condition : Expr} (h : condition.InScope t) :
    (guard kind condition).InScope t :=
  .binary (by simp) (.unary (by simp) h)
    (.node (by simp [Payload.names]) (by simp) (by simp [Payload.elements]) (by simp))

theorem guardAll_scoped (kind : GuardKind) {conditions : List Expr}
    (h : ∀ e ∈ conditions, e.InScope t) : ∀ e ∈ guardAll kind conditions, e.InScope t := by
  intro e he
  obtain ⟨g, hg, rfl⟩ := Option.map_eq_some_iff.1 (Option.mem_toList.1 he)
  exact guard_scoped kind (Condition.conjunction_scoped h hg)

theorem preamble_scoped (guards : Bool) {checks : Checks} {domain : Option Expr}
    (hc : checks.InScope t) (hd : ∀ e ∈ domain, e.InScope t) :
    ∀ e ∈ preamble guards checks domain, e.InScope t := by
  unfold preamble
  split
  · refine List.forall_mem_append.2 ⟨List.forall_mem_append.2 ⟨List.forall_mem_append.2
      ⟨guardAll_scoped _ hc.ranks, hc.assignments⟩, guardAll_scoped _ hc.lengths⟩, fun e he => ?_⟩
    obtain ⟨g, hg, rfl⟩ := Option.map_eq_some_iff.1 (Option.mem_toList.1 he)
    exact guard_scoped _ (hd g hg)
  · exact hc.assignments

/-! ## The loops -/

theorem assignmentTarget_known {e : Expr} {name : String} (he : e.InScope t)
    (h : assignmentTarget e = .ok name) : ∃ s, t.get? name = some s := by
  unfold assignmentTarget at h
  split at h
  · cases h
  · next target rest hch =>
    have htarget : target.InScope t := he.children target (by simp [hch])
    dsimp only at h
    split at h
    · next hname =>
      cases h
      split at hname
      · next hop =>
        exact (htarget.children _ (by simp [hop])).arrayName hname
      · exact htarget.arrayName hname
    · cases h

/-- What a result comes with is in scope. -/
structure StoreInScope (t : SymbolTable) (stored : String × List Expr × Expr) : Prop where
  result : ∃ s, t.get? stored.1 = some s
  allocation : ∀ e ∈ stored.2.1, e.InScope t
  body : stored.2.2.InScope t

theorem StoreInScope.mono {t' : SymbolTable} {stored : String × List Expr × Expr} (h : Extends t t')
    (hs : StoreInScope t stored) : StoreInScope t' stored := by
  obtain ⟨⟨s, hget⟩, halloc, hbody⟩ := hs
  exact ⟨⟨s, h.get? hget⟩, fun e he => (halloc e he).mono h, hbody.mono h⟩

theorem stays_store {shape : Shape} {indices : List String} {e : Expr}
    (hs : ∀ x ∈ shape, t.Scalar x) (hi : ∀ i ∈ indices, t.Scalar (.named i)) (he : e.InScope t) :
    Stays view t (store shape indices e) fun t' stored => StoreInScope t' stored := by
  have hsymbol : ∀ x ∈ (Symbol.array (some shape) none).elements, t.Scalar x :=
    List.forall_mem_append.2 ⟨hs, by simp [Symbol.array]⟩
  refine (stays_fresh hsymbol (by simp [Symbol.array])).bind fun t₁ result h₁ hresult => ?_
  have hindices : ∀ x ∈ indices.map Element.named, t₁.Scalar x := by
    intro x hx
    obtain ⟨i, hmem, rfl⟩ := List.mem_map.1 hx
    exact (hi i hmem).mono h₁
  refine (stays_vector hindices).bind fun t₂ vector h₂ hvector => .pure fun t' ht => ?_
  have hget := (h₂.trans ht).get? hresult
  have hs' : ∀ x ∈ shape, t'.Scalar x := fun x hx => (hs x hx).mono (h₁.trans (h₂.trans ht))
  exact ⟨⟨_, hget⟩, List.forall_mem_singleton.2 (.named hget hs' (by simp)),
    .binary hs' (.binary hs' (hvector.mono ht) (.array hget hs')) (he.mono (h₁.trans (h₂.trans ht)))⟩

theorem stays_loops {shape : Shape} {body : Expr} (indices : List String)
    (hs : ∀ x ∈ shape, t.Scalar x) (hb : body.InScope t) :
    Stays view t (loops shape body indices) fun t' e => e.InScope t' := by
  induction indices with
  | nil => exact .pure fun _ ht => hb.mono ht
  | cons index rest ih =>
    refine ih.bind fun t₁ inner h₁ hinner => (stays_symbol index).bind fun t₂ s h₂ hget => ?_
    split
    · next start stop step hvalue =>
      refine .pure fun t' ht => .node (fun name hn => ?_)
        (fun x hx => (hs x hx).mono (h₁.trans (h₂.trans ht))) (fun x hx => ?_)
        (List.forall_mem_singleton.2 (hinner.mono (h₂.trans ht)))
      · rcases List.mem_cons.1 hn with rfl | hn
        · exact ⟨s, ht.get? hget.2⟩
        · exact get?_of_mem_names (fun x hx => (hget.1.value_scalar hget.2 hvalue x hx).mono ht) hn
      · exact (hget.1.value_scalar hget.2 hvalue x hx).mono ht
    · exact .throw _

theorem select_scoped (path : Path) {e e' : Expr} (he : e.InScope t) (h : e.select path = .ok e') :
    e'.InScope t := by
  have hfrom : ∀ (whole : Path) (depth : Nat), Expr.selectFrom whole depth e path = .ok e' →
      e'.InScope t := by
    clear h
    induction path generalizing e with
    | nil =>
      intro whole depth h
      cases h
      exact he
    | cons i rest ih =>
      intro whole depth h
      rw [Expr.selectFrom] at h
      split at h
      · next child hchild =>
        exact ih (he.children child (List.mem_of_getElem? hchild)) whole (depth + 1) h
      · cases h
  exact hfrom path 0 h

theorem splitDomain_scoped {tree e : Expr} {domain : Option Expr} (h : tree.InScope t)
    (hsplit : splitDomain tree = .ok (domain, e)) : (∀ g ∈ domain, g.InScope t) ∧ e.InScope t := by
  unfold splitDomain at hsplit
  split at hsplit
  · obtain ⟨g, hg, hsplit⟩ := except_bind_ok.1 hsplit
    obtain ⟨e', he', hsplit⟩ := except_bind_ok.1 hsplit
    cases hsplit
    exact ⟨by simpa using select_scoped _ h hg, select_scoped _ h he'⟩
  · cases hsplit
    exact ⟨by simp, h⟩

theorem function_scoped (guards : Bool) {arguments : List String} {shape : Shape} {checks : Checks}
    {domain : Option Expr} {stored : String × List Expr × Expr} {nest : Expr}
    (ha : ∀ name ∈ arguments, ∃ s, t.get? name = some s) (hs : ∀ x ∈ shape, t.Scalar x)
    (hc : checks.InScope t) (hd : ∀ g ∈ domain, g.InScope t) (hstored : StoreInScope t stored)
    (hn : nest.InScope t) :
    (Expr.node .function (some shape) (.function arguments stored.1) [.node .block none .none
      (preamble guards checks domain ++ stored.2.1 ++ [nest])]).InScope t :=
  .node (List.forall_mem_append.2 ⟨ha, List.forall_mem_singleton.2 hstored.result⟩) hs
    (by simp [Payload.elements]) (List.forall_mem_singleton.2 (.plain (by simp) (forall_mem_concat
      (List.forall_mem_append.2 ⟨preamble_scoped guards hc hd, hstored.allocation⟩) hn)))

/-- **A function is in scope.** -/
theorem stays_function (guards : Bool) {arguments : List String} {domain : Option Expr} {e : Expr}
    (ha : ∀ name ∈ arguments, ∃ s, t.get? name = some s) (hd : ∀ g ∈ domain, g.InScope t)
    (he : e.InScope t) :
    Stays view t (function guards arguments domain e) fun t' e => e.InScope t' := by
  refine (stays_checkArguments arguments ⟨by simp, by simp, by simp⟩).bind
    fun t₁ checks h₁ hchecks => ?_
  split
  · exact .throw _
  · next shape hshape =>
    have hs : ∀ {t'}, Extends t₁ t' → ∀ x ∈ shape, t'.Scalar x :=
      fun ht => (he.mono (h₁.trans ht)).shape hshape
    refine Stays.get.bind fun t₂ s h₂ hgood => ?_
    obtain ⟨hordered, rfl⟩ := hgood
    refine Stays.bind (P := fun t' indices => ∀ i ∈ indices, t'.Scalar (.named i))
      (.lift fun t' indices ht hindices i hi => (hordered.freeIndices hindices i hi).mono ht)
      fun t₃ indices h₃ hindices => ?_
    have he₃ := he.mono (h₁.trans (h₂.trans h₃))
    -- wherever the result goes, the loops and the function around it are in scope
    have hrest : ∀ {t₄ : SymbolTable} (stored : String × List Expr × Expr), Extends t₃ t₄ →
        StoreInScope t₄ stored → Stays view t₄ (loops shape stored.2.2 indices >>= fun nest =>
          pure (Expr.node .function (some shape) (.function arguments stored.1)
            [.node .block none .none (preamble guards checks domain ++ stored.2.1 ++ [nest])]))
          fun t' e => e.InScope t' := by
      intro t₄ stored h₄ hstored
      have hgrows := h₂.trans (h₃.trans h₄)
      refine (stays_loops indices (hs hgrows) hstored.body).bind fun t₅ nest h₅ hnest =>
        .pure fun t' ht => ?_
      have hgrows' := hgrows.trans (h₅.trans ht)
      refine function_scoped guards (fun name hn => ?_) (hs hgrows') (hchecks.mono hgrows')
        (fun g hg => (hd g hg).mono (h₁.trans hgrows')) (hstored.mono (h₅.trans ht)) (hnest.mono ht)
      obtain ⟨s, hget⟩ := ha name hn
      exact ⟨s, (h₁.trans hgrows').get? hget⟩
    split
    · refine Stays.bind (P := fun t' name => ∃ s, t'.get? name = some s)
        (.lift fun t' name ht hname => assignmentTarget_known (he₃.mono ht) hname)
        fun t₄ name h₄ hname => ?_
      exact hrest (name, [], e) h₄ ⟨hname, by simp, he₃.mono h₄⟩
    · exact (stays_store (hs (h₂.trans h₃)) hindices he₃).bind fun t₄ stored h₄ hstored =>
        hrest stored h₄ hstored

end LoopNest

/-- **Lowering keeps a context in scope.** -/
theorem Context.WellScoped.lower {c f : Context} {guards : Bool} (hc : c.WellScoped)
    (h : c.lower guards = .ok f) : f.WellScoped ∧ Extends c.table f.table := by
  obtain ⟨arguments, harguments, h⟩ := except_bind_ok.1 h
  obtain ⟨⟨domain, e⟩, hsplit, h⟩ := except_bind_ok.1 h
  obtain ⟨hd, he⟩ := LoopNest.splitDomain_scoped hc.tree hsplit
  exact hc.grow (LoopNest.stays_function guards (hc.table.arguments harguments) hd he) h

end PsiCalculus
