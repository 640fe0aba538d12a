import PsiCalculus.Proofs.Editing

/-!
# The visits of a traversal

A traversal is run with a visitor that keeps a log of its calls (`Visitor.recording`), and the log is
split into the visits at each place (`History`). The table goes from visit to visit (`Threaded`):
each call is given the table that the one before it left.

* `Postordered f c c' history`: every node is visited once, operands first, over what has become of its
  operands.
* `Preordered f limit c c' history`: every node of the result was visited until it was kept, before any
  of its operands.
* `Postordered.node`, `Preordered.node`: a node over operands of which this holds.
* `descend_accounts`, `postorderAt_accounts`, `preorderAt_accounts`: what the run of a traversal returns
  is what is returned with a log, and the log is as described.
* `Traversal.visits_thread`: both orders, for every visitor.
-/

namespace PsiCalculus

/-- The node at the first path is visited before the one at the second, operands first. -/
def Path.precedes : Path → Path → Bool
  | [], _ => false
  | _ :: _, [] => true
  | i :: rest, j :: rest' => i < j || (i == j && Path.precedes rest rest')

/-- A call of a visitor: the context it was given, and its answer. -/
structure Visit where
  given : Context
  answer : Option Context

/-- What a call leaves: the replacement, or what was given if that is kept. -/
def Visit.result (v : Visit) : Context := v.answer.getD v.given

/-- The visitor, with a log of the calls that it answers. -/
def Visitor.recording (f : Context → Except Error (Option Context)) :
    Visitor (StateM (List Visit)) := fun c => ExceptT.mk do
  match f c with
  | .ok answer =>
    modify (· ++ [⟨c, answer⟩])
    return .ok answer
  | .error e => return .error e

namespace Traversal

/-! ## Runs with a log -/

section
variable {α β : Type}

/-- What a computation returns, and the log of its visits. -/
def runLogged (x : ExceptT Error (StateM (List Visit)) α) (log : List Visit) :
    Except Error α × List Visit :=
  Id.run (x.run.run log)

/-- The computation returns `a` and adds the visits to the log. -/
def Records (x : ExceptT Error (StateM (List Visit)) α) (a : α) (visits : List Visit) : Prop :=
  ∀ log, runLogged x log = (.ok a, log ++ visits)

theorem Records.pure (a : α) : Records (Pure.pure a) a [] := fun log => by
  rw [List.append_nil]
  rfl

theorem Records.bind {x : ExceptT Error (StateM (List Visit)) α}
    {g : α → ExceptT Error (StateM (List Visit)) β} {a : α} {b : β} {visits visits' : List Visit}
    (hx : Records x a visits) (hg : Records (g a) b visits') :
    Records (x >>= g) b (visits ++ visits') := by
  intro log
  have hbind : runLogged (x >>= g) log = match runLogged x log with
      | (.ok a, log') => runLogged (g a) log'
      | (.error e, log') => (.error e, log') := by
    unfold runLogged
    rw [ExceptT.run_bind]
    simp only [StateT.run_bind, Id.run_bind]
    generalize (StateT.run x.run log).run = r
    obtain ⟨_ | _, _⟩ := r <;> rfl
  rw [hbind, hx log]
  exact (hg _).trans (by rw [List.append_assoc])

theorem Records.map {x : ExceptT Error (StateM (List Visit)) α} {a : α} {visits : List Visit}
    (hx : Records x a visits) (g : α → β) : Records (g <$> x) (g a) visits := by
  rw [← bind_pure_comp, ← List.append_nil visits]
  exact hx.bind (.pure _)

theorem Records.lift {x : Except Error α} {a : α} (h : x = .ok a) : Records (liftExcept x) a [] := by
  subst h
  exact .pure a

theorem Records.visitAt {f : Context → Except Error (Option Context)} {c : Context}
    {answer : Option Context} (h : f c = .ok answer) (path : Path) :
    Records (visitAt (.recording f) path c) answer [⟨c, answer⟩] := by
  intro log
  have hanswer : Visitor.recording f c = ExceptT.mk (do
      modify (· ++ [⟨c, answer⟩])
      return .ok answer) := by
    rw [Visitor.recording, h]
  rw [Traversal.visitAt, hanswer]
  rfl

end

/-! ## Histories -/

/-- The table goes from visit to visit, from the first one given to the last one left. -/
inductive Threaded : SymbolTable → List Visit → SymbolTable → Prop
  | nil {t : SymbolTable} : Threaded t [] t
  | cons {v : Visit} {visits : List Visit} {t : SymbolTable} :
      Threaded v.result.table visits t → Threaded v.given.table (v :: visits) t

theorem Threaded.append {t₁ t₂ t₃ : SymbolTable} {visits visits' : List Visit}
    (h : Threaded t₁ visits t₂) (h' : Threaded t₂ visits' t₃) :
    Threaded t₁ (visits ++ visits') t₃ := by
  induction h with
  | nil => exact h'
  | cons _ ih => exact .cons (ih h')

/-- The visits at each place, in the order of time. -/
abbrev History := List (Path × List Visit)

namespace History

/-- All visits. -/
def visits (history : History) : List Visit := history.flatMap Prod.snd

/-- The histories of the operands of a node as one, each under the number of its operand. -/
def under (histories : List History) : History :=
  histories.zipIdx.flatMap fun (history, i) => history.map fun (p, visits) => (i :: p, visits)

variable {histories : List History}

theorem mem_under {path : Path} {vs : List Visit} : (path, vs) ∈ under histories ↔
    ∃ i p history, path = i :: p ∧ histories[i]? = some history ∧ (p, vs) ∈ history := by
  simp only [under, List.mem_flatMap, List.mem_map, Prod.mk.injEq, Prod.exists]
  constructor
  · rintro ⟨history, i, hi, p, vs', hmem, rfl, rfl⟩
    exact ⟨i, p, history, rfl, List.mem_zipIdx_iff_getElem?.1 hi, hmem⟩
  · rintro ⟨i, p, history, rfl, hi, hmem⟩
    exact ⟨history, i, List.mem_zipIdx_iff_getElem?.2 hi, p, vs, hmem, rfl, rfl⟩

theorem visits_under : visits (under histories) = histories.flatMap visits := by
  have hfrom : ∀ n, visits ((histories.zipIdx n).flatMap fun (history, i) =>
      history.map fun (p, visits) => (i :: p, visits)) = histories.flatMap visits := by
    induction histories with
    | nil => exact fun _ => rfl
    | cons history histories ih =>
      intro n
      rw [List.zipIdx_cons, List.flatMap_cons, List.flatMap_cons, ← ih (n + 1), visits,
        List.flatMap_append, visits, visits, List.flatMap_map]
  exact hfrom 0

/-- An order that goes by the first step, and then by the rest, sorts what is under a node. -/
theorem pairwise_under {R : Path → Path → Prop} (hfirst : ∀ {i j p q}, i < j → R (i :: p) (j :: q))
    (hrest : ∀ {i p q}, R p q → R (i :: p) (i :: q))
    (h : ∀ history ∈ histories, history.Pairwise fun a b => R a.1 b.1) :
    (under histories).Pairwise fun a b => R a.1 b.1 := by
  refine List.pairwise_flatMap.2 ⟨fun (history, i) hi => ?_, ?_⟩
  · rw [List.pairwise_map]
    exact (h history (List.fst_mem_of_mem_zipIdx hi)).imp hrest
  · have hlt : (histories.zipIdx.map Prod.snd).Pairwise (· < ·) := by
      rw [List.zipIdx_map_snd]
      exact List.pairwise_lt_range' 1
    refine (List.pairwise_map.1 hlt).imp fun {a b} hab => ?_
    intro x hx y hy
    obtain ⟨_, -, rfl⟩ := List.mem_map.1 hx
    obtain ⟨_, -, rfl⟩ := List.mem_map.1 hy
    exact hfirst hab

end History

/-- Operands taken to others one after the other, the table threaded through, with the history of
each. -/
inductive Histories (P : Context → Context → History → Prop) :
    SymbolTable → List Expr → List Expr → List History → SymbolTable → Prop
  | nil {t : SymbolTable} : Histories P t [] [] [] t
  | cons {t t₁ t₂ : SymbolTable} {e e' : Expr} {es es' : List Expr} {history : History}
      {histories : List History} : P ⟨e, t⟩ ⟨e', t₁⟩ history → Histories P t₁ es es' histories t₂ →
      Histories P t (e :: es) (e' :: es') (history :: histories) t₂

namespace Histories

variable {P : Context → Context → History → Prop} {t t' : SymbolTable} {es es' : List Expr}
  {histories : List History}

theorem length_eq (h : Histories P t es es' histories t') :
    es'.length = es.length ∧ histories.length = es.length := by
  induction h with
  | nil => exact ⟨rfl, rfl⟩
  | cons _ _ ih => simp [ih.1, ih.2]

/-- What holds of operand `i`, and which visits under the node are its. -/
theorem get (h : Histories P t es es' histories t') {i : Nat} (hi : i < es.length) :
    ∃ e e' history s s', es[i]? = some e ∧ es'[i]? = some e' ∧ P ⟨e, s⟩ ⟨e', s'⟩ history ∧
      ∀ p vs, (i :: p, vs) ∈ History.under histories ↔ (p, vs) ∈ history := by
  have hget : ∃ e e' history s s', es[i]? = some e ∧ es'[i]? = some e' ∧
      histories[i]? = some history ∧ P ⟨e, s⟩ ⟨e', s'⟩ history := by
    induction h generalizing i with
    | nil => cases hi
    | cons hfirst _ ih =>
      cases i with
      | zero => exact ⟨_, _, _, _, _, rfl, rfl, rfl, hfirst⟩
      | succ i => exact ih (Nat.lt_of_succ_lt_succ hi)
  obtain ⟨e, e', history, s, s', he, he', hhistory, hP⟩ := hget
  refine ⟨e, e', history, s, s', he, he', hP, fun p vs => ?_⟩
  rw [History.mem_under]
  constructor
  · rintro ⟨_, _, history', ⟨⟩, hi', hmem⟩
    cases hhistory.symm.trans hi'
    exact hmem
  · exact fun hmem => ⟨i, p, history, rfl, hhistory, hmem⟩

/-- Nothing else is under the node. -/
theorem exists_cons (h : Histories P t es es' histories t') {path : Path} {vs : List Visit}
    (hmem : (path, vs) ∈ History.under histories) : ∃ i p, path = i :: p ∧ i < es.length := by
  obtain ⟨i, p, history, rfl, hi, -⟩ := History.mem_under.1 hmem
  exact ⟨i, p, rfl, h.length_eq.2 ▸ (List.getElem?_eq_some_iff.1 hi).1⟩

theorem threaded (h : Histories P t es es' histories t')
    (hP : ∀ {c c' history}, P c c' history → Threaded c.table history.visits c'.table) :
    Threaded t (History.under histories).visits t' := by
  rw [History.visits_under]
  induction h with
  | nil => exact .nil
  | cons hfirst _ ih => exact (hP hfirst).append ih

theorem pairwise_under {R : Path → Path → Prop} (h : Histories P t es es' histories t')
    (hP : ∀ {c c' history}, P c c' history → history.Pairwise fun a b => R a.1 b.1)
    (hfirst : ∀ {i j p q}, i < j → R (i :: p) (j :: q))
    (hrest : ∀ {i p q}, R p q → R (i :: p) (i :: q)) :
    (History.under histories).Pairwise fun a b => R a.1 b.1 := by
  refine History.pairwise_under hfirst hrest fun history hmem => ?_
  induction h with
  | nil => cases hmem
  | cons hfirst _ ih =>
    rcases List.mem_cons.1 hmem with rfl | hmem
    · exact hP hfirst
    · exact ih hmem

end Histories

/-! ## Operands first -/

section
variable {f : Context → Except Error (Option Context)}

/-- The history of a traversal from `c` to `c'` that visits the operands of a node before the node. -/
structure Postordered (f : Context → Except Error (Option Context)) (c c' : Context)
    (history : History) : Prop where
  sorted : history.Pairwise fun a b => a.1.precedes b.1 = true
  nodes : ∀ p, (∃ vs, (p, vs) ∈ history) ↔ ∃ node, c.tree.select p = .ok node
  threaded : Threaded c.table history.visits c'.table
  /-- A node is visited once, over what the visits of its operands left. -/
  once : ∀ p vs node, (p, vs) ∈ history → c.tree.select p = .ok node →
    ∃ v results, vs = [v] ∧ f v.given = .ok v.answer ∧ v.given.tree = node.withChildren results ∧
      results.length = node.children.length ∧ ∀ i result, results[i]? = some result →
        ∃ w, (p ++ [i], [w]) ∈ history ∧ w.result.tree = result
  root : ∃ v, ([], [v]) ∈ history ∧ v.result = c'

/-- **A node is visited after its operands**, over what has become of them. -/
theorem Postordered.node {node : Expr} {t t' : SymbolTable} {es : List Expr}
    {histories : List History} {answer : Option Context}
    (h : Histories (Postordered f) t node.children es histories t')
    (hanswer : f ⟨node.withChildren es, t'⟩ = .ok answer) :
    Postordered f ⟨node, t⟩ (answer.getD ⟨node.withChildren es, t'⟩)
      (History.under histories ++ [([], [⟨⟨node.withChildren es, t'⟩, answer⟩])]) where
  sorted := by
    refine List.pairwise_append.2 ⟨h.pairwise_under (R := fun p q => p.precedes q = true)
      (fun hp => hp.sorted) (fun hlt => ?_) (fun hpq => ?_), List.pairwise_singleton _ _, ?_⟩
    · simp [Path.precedes, hlt]
    · simp [Path.precedes, hpq]
    · rintro ⟨path, vs⟩ hmem b hb
      obtain ⟨i, p, rfl, -⟩ := h.exists_cons hmem
      rw [List.mem_singleton.1 hb]
      rfl
  nodes p := by
    cases p with
    | nil => simp
    | cons i p =>
      have hunder : ∀ vs, (i :: p, vs) ∈ History.under histories ++
          [([], [⟨⟨node.withChildren es, t'⟩, answer⟩])] ↔ (i :: p, vs) ∈ History.under histories := by
        simp
      simp only [hunder, Expr.select_cons]
      constructor
      · rintro ⟨vs, hmem⟩
        obtain ⟨_, _, ⟨⟩, hi⟩ := h.exists_cons hmem
        obtain ⟨e, e', history, s, s', he, -, hp, hiff⟩ := h.get hi
        obtain ⟨n, hn⟩ := (hp.nodes p).1 ⟨vs, (hiff p vs).1 hmem⟩
        exact ⟨n, e, he, hn⟩
      · rintro ⟨n, e, he, hn⟩
        obtain ⟨e₁, e', history, s, s', he₁, -, hp, hiff⟩ := h.get (List.getElem?_eq_some_iff.1 he).1
        cases he.symm.trans he₁
        obtain ⟨vs, hmem⟩ := (hp.nodes p).2 ⟨n, hn⟩
        exact ⟨vs, (hiff p vs).2 hmem⟩
  threaded := by
    rw [History.visits, List.flatMap_append]
    exact (h.threaded fun hp => hp.threaded).append
      (.cons (v := ⟨⟨node.withChildren es, t'⟩, answer⟩) .nil)
  once p vs n hmem hn := by
    rcases List.mem_append.1 hmem with hmem | hmem
    · obtain ⟨i, p, rfl, hi⟩ := h.exists_cons hmem
      obtain ⟨e, e', history, s, s', he, -, hp, hiff⟩ := h.get hi
      obtain ⟨e₁, he₁, hn⟩ := Expr.select_cons.1 hn
      cases he.symm.trans he₁
      obtain ⟨v, results, rfl, hv, hgiven, hlength, hresults⟩ :=
        hp.once p vs n ((hiff p vs).1 hmem) hn
      refine ⟨v, results, rfl, hv, hgiven, hlength, fun j result hj => ?_⟩
      obtain ⟨w, hw, hwr⟩ := hresults j result hj
      exact ⟨w, List.mem_append_left _ ((hiff _ _).2 hw), hwr⟩
    · cases List.mem_singleton.1 hmem
      cases hn
      refine ⟨_, es, rfl, hanswer, rfl, h.length_eq.1, fun i result hi => ?_⟩
      have hlt : i < node.children.length := h.length_eq.1 ▸ (List.getElem?_eq_some_iff.1 hi).1
      obtain ⟨e, e', history, s, s', -, he', hp, hiff⟩ := h.get hlt
      cases hi.symm.trans he'
      obtain ⟨w, hw, hwr⟩ := hp.root
      exact ⟨w, List.mem_append_left _ ((hiff _ _).2 hw), by rw [hwr]⟩
  root := ⟨_, List.mem_append_right _ (.head _), rfl⟩

/-! ## Parents first -/

/-- A node is visited until it is kept: from `c` the visits lead to `kept`. -/
inductive Settles (f : Context → Except Error (Option Context)) : Context → List Visit → Context → Prop
  | kept {c : Context} : f c = .ok none → Settles f c [⟨c, none⟩] c
  | replaced {c c₁ kept : Context} {visits : List Visit} : f c = .ok (some c₁) →
      Settles f c₁ visits kept → Settles f c (⟨c, some c₁⟩ :: visits) kept

theorem Settles.threaded {c kept : Context} {visits : List Visit} (h : Settles f c visits kept) :
    Threaded c.table visits kept.table := by
  induction h with
  | @kept c _ => exact .cons (v := ⟨c, none⟩) .nil
  | @replaced c c₁ _ _ _ _ ih => exact .cons (v := ⟨c, some c₁⟩) ih

/-- The history of a traversal from `c` to `c'` that visits a node until it is kept, and its operands
then. -/
structure Preordered (f : Context → Except Error (Option Context)) (limit : Nat) (c c' : Context)
    (history : History) : Prop where
  sorted : history.Pairwise fun a b => a.1 < b.1
  nodes : ∀ p, (∃ vs, (p, vs) ∈ history) ↔ ∃ node, c'.tree.select p = .ok node
  threaded : Threaded c.table history.visits c'.table
  /-- A node was kept as it is, apart from its operands, and its operands were visited as they were
  when it was kept. -/
  settled : ∀ p vs node, (p, vs) ∈ history → c'.tree.select p = .ok node →
    ∃ given kept, Settles f given vs kept ∧ vs.length ≤ limit + 1 ∧ node.head = kept.tree.head ∧
      ∀ i child, kept.tree.children[i]? = some child → ∃ t ws kept',
        (p ++ [i], ws) ∈ history ∧ Settles f ⟨child, t⟩ ws kept'
  root : ∃ vs kept, ([], vs) ∈ history ∧ Settles f c vs kept

/-- **The operands of a node are visited after it was kept.** -/
theorem Preordered.node {limit : Nat} {c kept : Context} {vs : List Visit} {t : SymbolTable}
    {es : List Expr} {histories : List History} (hsettles : Settles f c vs kept)
    (hlimit : vs.length ≤ limit + 1)
    (h : Histories (Preordered f limit) kept.table kept.tree.children es histories t) :
    Preordered f limit c ⟨kept.tree.withChildren es, t⟩ (([], vs) :: History.under histories) where
  sorted := by
    refine List.pairwise_cons.2 ⟨?_, h.pairwise_under (R := fun p q => p < q)
      (fun hp => hp.sorted) (fun hlt => ?_) (fun hpq => ?_)⟩
    · rintro ⟨path, ws⟩ hmem
      obtain ⟨i, p, rfl, -⟩ := h.exists_cons hmem
      exact List.nil_lt_cons _ _
    · exact List.cons_lt_cons_iff.2 (.inl hlt)
    · exact List.cons_lt_cons_iff.2 (.inr ⟨rfl, hpq⟩)
  nodes p := by
    cases p with
    | nil => simp
    | cons i p =>
      simp only [List.mem_cons, Prod.mk.injEq, reduceCtorEq, false_and, false_or, Expr.select_cons,
        Expr.children_withChildren]
      constructor
      · rintro ⟨ws, hmem⟩
        obtain ⟨_, _, ⟨⟩, hi⟩ := h.exists_cons hmem
        obtain ⟨e, e', history, s, s', -, he', hp, hiff⟩ := h.get hi
        obtain ⟨n, hn⟩ := (hp.nodes p).1 ⟨ws, (hiff p ws).1 hmem⟩
        exact ⟨n, e', he', hn⟩
      · rintro ⟨n, e', he', hn⟩
        have hi : i < kept.tree.children.length :=
          h.length_eq.1 ▸ (List.getElem?_eq_some_iff.1 he').1
        obtain ⟨e, e₁, history, s, s', -, he₁, hp, hiff⟩ := h.get hi
        cases he'.symm.trans he₁
        obtain ⟨ws, hmem⟩ := (hp.nodes p).2 ⟨n, hn⟩
        exact ⟨ws, (hiff p ws).2 hmem⟩
  threaded := hsettles.threaded.append (h.threaded fun hp => hp.threaded)
  settled p ws n hmem hn := by
    rcases List.mem_cons.1 hmem with hroot | hmem
    · cases hroot
      cases hn
      refine ⟨c, kept, hsettles, hlimit, ?_, fun i child hchild => ?_⟩
      · rw [Expr.head_withChildren, h.length_eq.1]
        rfl
      · obtain ⟨e, e', history, s, s', he, -, hp, hiff⟩ := h.get (List.getElem?_eq_some_iff.1 hchild).1
        cases hchild.symm.trans he
        obtain ⟨us, kept', hus, hsettles'⟩ := hp.root
        exact ⟨s, us, kept', .tail _ ((hiff _ _).2 hus), hsettles'⟩
    · obtain ⟨i, p, rfl, hi⟩ := h.exists_cons hmem
      obtain ⟨e, e', history, s, s', -, he', hp, hiff⟩ := h.get hi
      obtain ⟨e₁, he₁, hn⟩ := Expr.select_cons.1 hn
      rw [Expr.children_withChildren] at he₁
      cases he'.symm.trans he₁
      obtain ⟨given, kept', hgiven, hle, hhead, hchildren⟩ :=
        hp.settled p ws n ((hiff p ws).1 hmem) hn
      refine ⟨given, kept', hgiven, hle, hhead, fun j child hj => ?_⟩
      obtain ⟨t', us, kept'', hus, hsettles'⟩ := hchildren j child hj
      exact ⟨t', us, kept'', .tail _ ((hiff _ _).2 hus), hsettles'⟩
  root := ⟨vs, kept, .head _, hsettles⟩

/-! ## Runs -/

/-- A run of a traversal from `c` with the outcome `o` is accounted for by a history: with a log the
outcome is the same. -/
structure Accounts (P : Context → Context → History → Prop) (c : Context) (o : Outcome)
    (x : ExceptT Error (StateM (List Visit)) Outcome) : Prop where
  exists_history : ∃ history : History, Records x o history.visits ∧ P c o.context history
  /-- A tree in which nothing was replaced is the old one. -/
  same : o.changed = false → o.context.tree = c.tree

theorem descend_accounts {P : Context → Context → History → Prop}
    {recurse : Path → Context → ExceptT Error Id Outcome}
    (recurse' : Path → Context → ExceptT Error (StateM (List Visit)) Outcome) {path : Path} :
    ∀ {es : List Expr} {index : Nat} {t : SymbolTable} {operands : Operands},
      (∀ e ∈ es, ∀ {path t o}, run (recurse path ⟨e, t⟩) = .ok o →
        Accounts P ⟨e, t⟩ o (recurse' path ⟨e, t⟩)) →
      run (descend recurse path index t es) = .ok operands →
      (∃ histories, Records (descend recurse' path index t es) operands
          (History.under histories).visits ∧
        Histories P t es operands.trees histories operands.table) ∧
      (operands.changed = false → operands.trees = es)
  | [], _, _, _, _, h => by
    cases h
    exact ⟨⟨[], .pure _, .nil⟩, fun _ => rfl⟩
  | e :: es, index, t, operands, hrec, h => by
    rw [descend] at h
    simp only [run_bind, except_bind_ok, run_pure, Except.ok.injEq] at h
    obtain ⟨first, hfirst, others, hothers, rfl⟩ := h
    obtain ⟨⟨history, hlog, hP⟩, hsame⟩ := hrec e (.head _) hfirst
    obtain ⟨⟨histories, hlogs, hhistories⟩, hsame'⟩ :=
      descend_accounts recurse' (fun e' he' => hrec e' (.tail _ he')) hothers
    refine ⟨⟨history :: histories, ?_, .cons hP hhistories⟩, fun hch => ?_⟩
    · rw [descend, History.visits_under, List.flatMap_cons, ← History.visits_under,
        ← List.append_nil (History.visits (History.under histories))]
      exact hlog.bind (hlogs.bind (.pure _))
    · simp only [Bool.or_eq_false_iff] at hch
      rw [hsame hch.1, hsame' hch.2]

theorem postorderAll_eq {m : Type → Type} [Monad m] (visit : Visitor m) (path : Path) :
    ∀ (index : Nat) (t : SymbolTable) (es : List Expr), postorderAll visit path index t es =
      descend (fun path c => postorderAt visit path c.table c.tree) path index t es
  | _, _, [] => rfl
  | index, t, e :: es => by
    rw [postorderAll, descend]
    simp only [postorderAll_eq visit path (index + 1)]

theorem postorderAt_node {m : Type → Type} [Monad m] (visit : Visitor m) (path : Path)
    (t : SymbolTable) (op : Operator) (shape : Option Shape) (payload : Payload)
    (children : List Expr) : postorderAt visit path t (.node op shape payload children) = do
      let operands ← descend (fun path c => postorderAt visit path c.table c.tree) path 0 t children
      let c ← liftExcept (reassemble (.node op shape payload children) operands)
      let answer ← visitAt visit path c
      return ⟨answer.getD c, answer.isSome || operands.changed⟩ := by
  rw [postorderAt, postorderAll_eq]
  refine bind_congr fun operands => bind_congr fun c => bind_congr fun answer => ?_
  cases answer <;> rfl

/-- **A traversal that visits operands first** is accounted for. -/
theorem postorderAt_accounts (e : Expr) : ∀ {path : Path} {t : SymbolTable} {o : Outcome},
    run (postorderAt (.ofExcept f) path t e) = .ok o →
    Accounts (Postordered f) ⟨e, t⟩ o (postorderAt (.recording f) path t e) := by
  induction e using Expr.induction_on_children with
  | node op shape payload children ih =>
    intro path t o h
    rw [postorderAt_node] at h
    simp only [run_bind, except_bind_ok, run_liftExcept, run_visitAt, run_pure, Except.ok.injEq] at h
    obtain ⟨operands, hoperands, c, hc, answer, hanswer, rfl⟩ := h
    obtain ⟨⟨histories, hlogs, hhistories⟩, hsame⟩ := descend_accounts
      (fun path c => postorderAt (.recording f) path c.table c.tree) ih hoperands
    have hvisit := Records.visitAt hanswer path
    have hlift := Records.lift hc
    obtain rfl := reassemble_ok hsame hc
    refine ⟨⟨_, ?_, Postordered.node hhistories hanswer⟩, fun hch => ?_⟩
    · rw [postorderAt_node, History.visits, List.flatMap_append]
      exact hlogs.bind (hlift.bind (hvisit.bind (.pure _)))
    · simp only [Bool.or_eq_false_iff, Option.isSome_eq_false_iff, Option.isNone_iff_eq_none] at hch
      rw [hch.1, Option.getD_none, hsame hch.2]
      rfl

/-- A node is visited until it is kept. -/
theorem settle_records {path : Path} {limit : Nat} : ∀ {budget : Nat} {c : Context} {o : Outcome},
    run (settle (.ofExcept f) path limit budget c) = .ok o →
    ∃ visits, Records (settle (.recording f) path limit budget c) o visits ∧
      Settles f c visits o.context ∧ visits.length ≤ budget + 1 ∧
      (o.changed = false → o.context = c)
  | 0, c, o, h => by
    rw [settle] at h
    simp only [run_bind, except_bind_ok, run_visitAt] at h
    obtain ⟨_ | replacement, hanswer, h⟩ := h
    · cases h
      exact ⟨_, (Records.visitAt hanswer path).bind (.pure _), .kept hanswer, Nat.le_refl _,
        fun _ => rfl⟩
    · cases h
  | budget + 1, c, o, h => by
    rw [settle] at h
    simp only [run_bind, except_bind_ok, run_visitAt] at h
    obtain ⟨_ | replacement, hanswer, h⟩ := h
    · cases h
      exact ⟨_, (Records.visitAt hanswer path).bind (.pure _), .kept hanswer, by simp, fun _ => rfl⟩
    · simp only [run_bind, except_bind_ok, run_pure, Except.ok.injEq] at h
      obtain ⟨settled, hsettled, rfl⟩ := h
      obtain ⟨visits, hrecords, hsettles, hle, -⟩ := settle_records hsettled
      refine ⟨_ :: visits, ?_, .replaced hanswer hsettles, by simpa using hle, by simp⟩
      rw [← List.append_nil visits]
      exact (Records.visitAt hanswer path).bind (hrecords.bind (.pure _))

/-- **A traversal that visits parents first** is accounted for, however deep it goes. -/
theorem preorderAt_accounts {limit : Nat} : ∀ {depth : Nat} {path : Path} {c : Context} {o : Outcome},
    run (preorderAt (.ofExcept f) limit depth path c) = .ok o →
    Accounts (Preordered f limit) c o (preorderAt (.recording f) limit depth path c)
  | 0, _, _, _, h => by cases h
  | depth + 1, path, c, o, h => by
    rw [preorderAt] at h
    simp only [run_bind, except_bind_ok, run_liftExcept, run_pure, Except.ok.injEq] at h
    obtain ⟨settled, hsettled, operands, hoperands, c₁, hc₁, rfl⟩ := h
    obtain ⟨vs, hrecords, hsettles, hle, hkept⟩ := settle_records hsettled
    obtain ⟨⟨histories, hlogs, hhistories⟩, hsame⟩ :=
      descend_accounts (preorderAt (.recording f) limit depth) (fun _ _ => preorderAt_accounts)
        hoperands
    have hlift := Records.lift hc₁
    obtain rfl := reassemble_ok hsame hc₁
    refine ⟨⟨_, ?_, Preordered.node hsettles hle hhistories⟩, fun hch => ?_⟩
    · rw [preorderAt, History.visits, List.flatMap_cons,
        ← List.append_nil (List.flatMap Prod.snd (History.under histories))]
      exact hrecords.bind (hlogs.bind (hlift.bind (.pure _)))
    · simp only [Bool.or_eq_false_iff] at hch
      rw [hsame hch.2, hkept hch.1]
      cases c.tree
      rfl

end

/-- **Traversals thread the table.** For every visitor and every context, in both orders: a run that
returns has a history, so that each visit is given the table that the one before it left, the first one
that of the context, and the result has the table that the last one left. Operands first, every node is
visited once, in order, over what the visits of its operands left. Parents first, with any number of
replacements at a node and to any depth, every node of the result was visited until it was kept, before
its operands, and is the one that was kept but for these. -/
theorem visits_thread (f : Context → Except Error (Option Context)) (c : Context) :
    (∀ c', run (postorder (.ofExcept f) c) = .ok c' → ∃ history : History,
      runLogged (postorder (.recording f) c) [] = (.ok c', history.visits) ∧
      Postordered f c c' history) ∧
    (∀ limit c', run (preorder (.ofExcept f) limit c) = .ok c' → ∃ history : History,
      runLogged (preorder (.recording f) limit c) [] = (.ok c', history.visits) ∧
      Preordered f limit c c' history) ∧
    ∀ limit depth o, run (preorderAt (.ofExcept f) limit depth [] c) = .ok o → ∃ history : History,
      runLogged (preorderAt (.recording f) limit depth [] c) [] = (.ok o, history.visits) ∧
      Preordered f limit c o.context history := by
  have hmap : ∀ {P : Context → Context → History → Prop} {o : Outcome}
      {x : ExceptT Error (StateM (List Visit)) Outcome}, Accounts P c o x → ∃ history : History,
        runLogged (Outcome.context <$> x) [] = (.ok o.context, history.visits) ∧
        P c o.context history := by
    rintro P o x ⟨⟨history, hlog, hP⟩, -⟩
    exact ⟨history, hlog.map Outcome.context [], hP⟩
  refine ⟨fun c' h => ?_, fun limit c' h => ?_, fun limit depth o h => ?_⟩
  · rw [postorder, run_map, map_ok] at h
    obtain ⟨o, ho, rfl⟩ := h
    exact hmap (postorderAt_accounts c.tree ho)
  · rw [preorder, run_map, map_ok] at h
    obtain ⟨o, ho, rfl⟩ := h
    exact hmap (preorderAt_accounts ho)
  · obtain ⟨⟨history, hlog, hP⟩, -⟩ := preorderAt_accounts h
    exact ⟨history, hlog [], hP⟩

/-- A sum that is given its shapes, with a new symbol for each node: of the three nodes, each is visited
once operands first, and twice parents first. -/
theorem visits_thread_sum :
    let f : Context → Except Error (Option Context) := fun c =>
      if c.tree.shape = none then
        some <$> c.grow ((fun _ => c.tree.withShape (some [])) <$> Grow.scalar (.int c.table.size))
      else .ok none
    let c : Context := ⟨.binary (.arith .plus) none (.array "x" none) (.array "y" none),
      ⟨[("x", .array (some []) none), ("y", .array (some []) none)], 0⟩⟩
    (∃ c' history, run (postorder (.ofExcept f) c) = .ok c' ∧ Postordered f c c' history ∧
      history.visits.map (·.given.table.size) = [2, 3, 4]) ∧
    ∃ c' history, run (preorder (.ofExcept f) 1 c) = .ok c' ∧ Preordered f 1 c c' history ∧
      history.visits.map (·.given.table.size) = [2, 3, 3, 4, 4, 5] := by
  intro f c
  have hpost : (run (postorder (.ofExcept f) c)).isOk = true ∧
      (runLogged (postorder (.recording f) c) []).2.map (·.given.table.size) = [2, 3, 4] := by
    decide +kernel
  have hpre : (run (preorder (.ofExcept f) 1 c)).isOk = true ∧
      (runLogged (preorder (.recording f) 1 c) []).2.map (·.given.table.size) =
        [2, 3, 3, 4, 4, 5] := by
    decide +kernel
  obtain ⟨hpostorder, hpreorder, -⟩ := visits_thread f c
  constructor
  · cases hrun : run (postorder (.ofExcept f) c) with
    | error e => simp [hrun, Except.isOk, Except.toBool] at hpost
    | ok c' =>
      obtain ⟨history, hlog, hhistory⟩ := hpostorder c' hrun
      rw [hlog] at hpost
      exact ⟨c', history, rfl, hhistory, hpost.2⟩
  · cases hrun : run (preorder (.ofExcept f) 1 c) with
    | error e => simp [hrun, Except.isOk, Except.toBool] at hpre
    | ok c' =>
      obtain ⟨history, hlog, hhistory⟩ := hpreorder 1 c' hrun
      rw [hlog] at hpre
      exact ⟨c', history, rfl, hhistory, hpre.2⟩

end Traversal

end PsiCalculus
