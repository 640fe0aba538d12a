import PsiCalculus.Proofs.NormalForm.Irreducible
import PsiCalculus.Proofs.Progress.Descent

/-!
# Reduction and its limit

The limit on rewrites is a resource and nothing else: a reduction that stays below it does not change
when the limit is raised, and some limit is never reached. An index can be pushed down at most as often
as the operand it indexes has nodes, so that the nodes of the input are enough rewrites for every node,
those that the rewrites build included.

* `Agrees x y`: the outcome `x`, unless the limit cut it short, is that of `y` too. `preorderAt_agrees`:
  a traversal agrees with the one under a higher limit, whatever the visitor.
* `Dwindles`: what a visitor has to do at one node so that a whole traversal is cut short neither by
  its limit nor by its depth (`Dwindles.preorderAt`).
* `Pushes.dwindles`: a rewrite leaves fewer rewrites for the node, and no more levels below it. The
  levels are those of the index vector and two for each node of the indexed operand (`Expr.span`).
-/

namespace PsiCalculus

/-! ## Outcomes that no limit cut short -/

/-- Whether the error says that a traversal was cut short, by its limit or by its depth. -/
def Error.cuts : Error → Bool
  | nonconvergence _ _ | tooDeep => true
  | _ => false

theorem Error.cuts_located (path : Path) (e : Error) : (e.located path).cuts = e.cuts := by
  cases e <;> rfl

/-- A run that ends with a result in `P`, or fails for another reason than that it was cut short. -/
inductive Uncut {α : Type} (P : α → Prop) : Except Error α → Prop
  | ok {a : α} : P a → Uncut P (.ok a)
  | error {e : Error} : e.cuts = false → Uncut P (.error e)

namespace Uncut

variable {α β : Type} {P : α → Prop} {Q : β → Prop} {x : Except Error α}

theorem bind {f : α → Except Error β} (hx : Uncut P x)
    (hf : ∀ a, x = .ok a → P a → Uncut Q (f a)) : Uncut Q (x >>= f) := by
  cases hx with
  | ok ha => exact hf _ rfl ha
  | error he => exact .error he

theorem map {f : α → β} (hx : Uncut P x) (hf : ∀ a, P a → Q (f a)) : Uncut Q (f <$> x) := by
  cases hx with
  | ok ha => exact .ok (hf _ ha)
  | error he => exact .error he

theorem ne_error {e : Error} (hx : Uncut P x) (he : e.cuts = true) : x ≠ .error e := by
  rintro rfl
  cases hx with
  | error he' => exact Bool.false_ne_true (he'.symm.trans he)

end Uncut

/-- The outcome `x`, unless it was cut short by a limit on rewrites, is that of `y`. -/
def Agrees {α : Type} (x y : Except Error α) : Prop :=
  (∀ path limit, x ≠ .error (.nonconvergence path limit)) → y = x

namespace Agrees

variable {α β : Type} {x y : Except Error α}

theorem refl (x : Except Error α) : Agrees x x := fun _ => rfl

theorem bind {f g : α → Except Error β} (h : Agrees x y) (hf : ∀ a, Agrees (f a) (g a)) :
    Agrees (x >>= f) (y >>= g) := by
  intro huncut
  cases x with
  | error e =>
    rw [h fun path limit heq => huncut path limit (by cases heq; rfl)]
    rfl
  | ok a =>
    rw [h fun _ _ heq => by cases heq]
    exact hf a huncut

theorem map (f : α → β) (h : Agrees x y) : Agrees (f <$> x) (f <$> y) := by
  intro huncut
  rw [h fun path limit heq => huncut path limit (by rw [heq]; rfl)]

end Agrees

/-! ## Traversals under a higher limit -/

namespace Traversal

section
variable {f : Context → Except Error (Option Context)} {limit limit' : Nat}

/-- A node that settles within a budget settles alike within a larger one. -/
theorem settle_agrees {path : Path} : ∀ {budget budget' : Nat} {c : Context}, budget ≤ budget' →
    Agrees (run (settle (.ofExcept f) path limit budget c))
      (run (settle (.ofExcept f) path limit' budget' c)) := by
  intro budget
  induction budget with
  | zero =>
    intro budget' c _
    -- the last visit allowed has to keep the node, as does the first one of the larger budget
    cases budget' <;>
    · rw [settle, settle]
      simp only [run_bind]
      refine (Agrees.refl _).bind fun r => ?_
      cases r with
      | none => exact .refl _
      | some c' => exact fun huncut => absurd rfl (huncut path limit)
  | succ budget ih =>
    intro budget' c hle
    obtain ⟨budget', rfl⟩ : ∃ k, budget' = k + 1 := Nat.exists_eq_add_one_of_ne_zero (by omega)
    rw [settle, settle]
    simp only [run_bind]
    refine (Agrees.refl _).bind fun r => ?_
    cases r with
    | none => exact .refl _
    | some c' =>
      simp only [run_bind]
      exact (ih (Nat.le_of_succ_le_succ hle)).bind fun _ => .refl _

theorem descend_agrees {recurse recurse' : Path → Context → ExceptT Error Id Outcome}
    (hrec : ∀ path c, Agrees (run (recurse path c)) (run (recurse' path c))) {path : Path} :
    ∀ {es : List Expr} {index : Nat} {t : SymbolTable},
      Agrees (run (descend recurse path index t es)) (run (descend recurse' path index t es)) := by
  intro es
  induction es with
  | nil => exact .refl _
  | cons e es ih =>
    intro index t
    rw [descend, descend]
    simp only [run_bind]
    exact (hrec _ _).bind fun _ => ih.bind fun _ => .refl _

/-- **A limit only cuts traversals short.** -/
theorem preorderAt_agrees (hle : limit ≤ limit') : ∀ {depth : Nat} {path : Path} {c : Context},
    Agrees (run (preorderAt (.ofExcept f) limit depth path c))
      (run (preorderAt (.ofExcept f) limit' depth path c)) := by
  intro depth
  induction depth with
  | zero => exact .refl _
  | succ depth ih =>
    intro path c
    rw [preorderAt, preorderAt]
    simp only [run_bind]
    refine (settle_agrees hle).bind fun settled => ?_
    exact (descend_agrees fun _ _ => ih).bind fun _ => .refl _

/-! ## Traversals that are not cut short -/

/-- What a visitor has to do at one node so that a whole traversal is not cut short: a tree in `Inv`
takes at most `steps` replacements of its root and spans at most `levels` levels. -/
structure Dwindles (f : Context → Except Error (Option Context)) (limit : Nat) (Inv : Expr → Prop)
    (steps levels : Expr → Nat) : Prop where
  levels_pos : ∀ e, 0 < levels e
  steps_le : ∀ {e}, Inv e → steps e ≤ limit
  step : ∀ {c}, Inv c.tree → Uncut (fun r => ∀ c', r = some c' →
    Inv c'.tree ∧ steps c'.tree < steps c.tree ∧ levels c'.tree ≤ levels c.tree) (f c)
  child : ∀ {c e}, Inv c.tree → f c = .ok none → e ∈ c.tree.children →
    Inv e ∧ levels e < levels c.tree

namespace Dwindles

variable {Inv : Expr → Prop} {steps levels : Expr → Nat}

theorem visitAt {path : Path} {c : Context} {P : Option Context → Prop} (h : Uncut P (f c)) :
    Uncut P (run (visitAt (.ofExcept f) path c)) := by
  have hrun : run (Traversal.visitAt (.ofExcept f) path c) = (f c).mapError (Error.located path) := rfl
  rw [hrun]
  generalize f c = r at h
  cases h with
  | ok ha => exact .ok ha
  | @error e he => exact .error ((e.cuts_located path).trans he)

/-- A node settles within as many replacements as it takes at most. -/
theorem settle (hd : Dwindles f limit Inv steps levels) {path : Path} :
    ∀ {budget : Nat} {c : Context}, Inv c.tree → steps c.tree ≤ budget →
      Uncut (fun o => Inv o.context.tree ∧ f o.context = .ok none ∧
        levels o.context.tree ≤ levels c.tree)
        (run (settle (.ofExcept f) path limit budget c)) := by
  intro budget
  induction budget with
  | zero =>
    intro c hc hsteps
    rw [Traversal.settle, run_bind]
    refine (visitAt (hd.step hc)).bind fun r hr hstep => ?_
    cases r with
    | none => exact .ok ⟨hc, run_visitAt.1 hr, Nat.le_refl _⟩
    | some c' =>
      obtain ⟨-, hlt, -⟩ := hstep c' rfl
      omega
  | succ budget ih =>
    intro c hc hsteps
    rw [Traversal.settle, run_bind]
    refine (visitAt (hd.step hc)).bind fun r hr hstep => ?_
    cases r with
    | none => exact .ok ⟨hc, run_visitAt.1 hr, Nat.le_refl _⟩
    | some c' =>
      obtain ⟨hc', hlt, hlevels⟩ := hstep c' rfl
      simp only [run_bind]
      refine (ih hc' (by omega)).bind fun o _ ho => ?_
      exact .ok ⟨ho.1, ho.2.1, Nat.le_trans ho.2.2 hlevels⟩

theorem descend {depth : Nat} {recurse : Path → Context → ExceptT Error Id Outcome}
    (hrec : ∀ {path c}, Inv c.tree → levels c.tree ≤ depth →
      Uncut (fun _ => True) (run (recurse path c))) {path : Path} :
    ∀ {es : List Expr} {index : Nat} {t : SymbolTable}, (∀ e ∈ es, Inv e ∧ levels e ≤ depth) →
      Uncut (fun _ => True) (run (descend recurse path index t es)) := by
  intro es
  induction es with
  | nil => exact fun _ => .ok trivial
  | cons e es ih =>
    intro index t hes
    rw [Traversal.descend]
    simp only [run_bind]
    refine (hrec (hes e (.head _)).1 (hes e (.head _)).2).bind fun first _ _ => ?_
    exact (ih fun e' he' => hes e' (.tail _ he')).bind fun _ _ _ => .ok trivial

theorem reassemble (node : Expr) (operands : Operands) :
    Uncut (fun _ => True) (reassemble node operands) := by
  unfold Traversal.reassemble Expr.rebuild
  split
  · split
    · exact .ok trivial
    · exact .error rfl
  · exact .ok trivial

/-- **A traversal down to as many levels as a tree spans is not cut short.** -/
theorem preorderAt (hd : Dwindles f limit Inv steps levels) :
    ∀ {depth : Nat} {path : Path} {c : Context}, Inv c.tree → levels c.tree ≤ depth →
      Uncut (fun _ => True) (run (preorderAt (.ofExcept f) limit depth path c)) := by
  intro depth
  induction depth with
  | zero =>
    intro path c _ hlevels
    have := hd.levels_pos c.tree
    omega
  | succ depth ih =>
    intro path c hc hlevels
    rw [Traversal.preorderAt]
    simp only [run_bind, run_liftExcept, run_pure]
    refine (hd.settle hc (hd.steps_le hc)).bind fun settled _ hsettled => ?_
    obtain ⟨hinv, hnone, hle⟩ := hsettled
    refine (Dwindles.descend (fun hi hl => ih hi hl) fun e he => ?_).bind fun operands _ _ => ?_
    · obtain ⟨hi, hlt⟩ := hd.child hinv hnone he
      exact ⟨hi, by omega⟩
    · exact (Dwindles.reassemble _ _).bind fun _ _ _ => .ok trivial

end Dwindles

end

end Traversal

/-! ## Computations that enter symbols -/

/-- A computation on tables that nothing cuts short. -/
def Grow.Uncut {α : Type} (x : Grow α) : Prop := ∀ t, PsiCalculus.Uncut (fun _ => True) (x.run t)

namespace Grow.Uncut

variable {α β : Type}

theorem pure (a : α) : Grow.Uncut (Pure.pure a) := fun _ => .ok trivial

theorem throw {e : Error} (h : e.cuts = false) : Grow.Uncut (throw e : Grow α) := fun _ => .error h

theorem bind {x : Grow α} {f : α → Grow β} (hx : x.Uncut) (hf : ∀ a, (f a).Uncut) :
    (x >>= f).Uncut := fun t => by
  rw [StateT.run_bind]
  exact (hx t).bind fun p _ _ => hf p.1 p.2

theorem fresh (symbol : Symbol) : (fresh symbol).Uncut := fun t => by
  have hcounter : PsiCalculus.Uncut (fun _ => True)
      (t.counterAfter (t.freshName symbol.kind)) := by
    unfold SymbolTable.counterAfter
    split
    · exact .ok trivial
    · split
      · exact .ok trivial
      · exact .error rfl
  have hinsert : PsiCalculus.Uncut (fun _ => True)
      (t.insert (t.freshName symbol.kind) symbol) := by
    rw [SymbolTable.insert, SymbolTable.freshName_get?]
    exact hcounter.bind fun _ _ _ => .ok trivial
  rw [fresh_run]
  exact hinsert.map fun _ _ => trivial

theorem array (shape value : Option Shape) : (array shape value).Uncut :=
  (fresh _).bind fun _ => pure _

theorem symbol (name : String) : (symbol name).Uncut := fun t => by
  have hrun : (Grow.symbol name).run t = t.get name >>= fun s => .ok (s, t) := rfl
  have hget : PsiCalculus.Uncut (fun _ => True) (t.get name) := by
    unfold SymbolTable.get
    split
    · exact .ok trivial
    · exact .error rfl
  rw [hrun]
  exact hget.bind fun _ _ _ => .ok trivial

end Grow.Uncut

namespace Rule

variable {α : Type}

theorem fault_uncut (f : PatternFault) : (fault f : Grow α).Uncut := .throw rfl

theorem operands_uncut (node : Expr) : (operands node).Uncut := by
  unfold operands
  split
  · exact .pure _
  · exact fault_uncut _

theorem operand_uncut (node : Expr) : (operand node).Uncut := by
  unfold operand
  split
  · exact .pure _
  · exact fault_uncut _

theorem shapeOf_uncut (node : Expr) : (shapeOf node).Uncut := by
  unfold shapeOf
  split
  · exact .pure _
  · exact .throw rfl

theorem elements_uncut (node : Expr) : (elements node).Uncut := by
  unfold elements
  split
  · exact fault_uncut _
  · refine (Grow.Uncut.symbol _).bind fun symbol => ?_
    split
    · exact .pure _
    · exact fault_uncut _

theorem indexed_uncut (s : Option Shape) (elements : Shape) (X : Expr) :
    (indexed s elements X).Uncut :=
  (Grow.Uncut.array _ _).bind fun _ => .pure _

theorem pushOperand_uncut (s : Option Shape) (v X : Expr) : (pushOperand s v X).Uncut := by
  unfold pushOperand
  split
  · exact .pure _
  · refine (shapeOf_uncut X).bind fun shape => ?_
    split
    · exact indexed_uncut _ _ _
    · exact .pure _

/-- **No rule is cut short.** -/
theorem apply_uncut (rule : Rule) (node : Expr) : (rule.apply node).Uncut := by
  unfold apply
  split
  · exact (operands_uncut _).bind fun _ => (operands_uncut _).bind fun _ => .pure _
  · refine (operands_uncut _).bind fun _ => (operands_uncut _).bind fun _ => ?_
    exact (elements_uncut _).bind fun _ => (elements_uncut _).bind fun _ => indexed_uncut _ _ _
  · refine (operands_uncut _).bind fun _ => (operand_uncut _).bind fun _ => ?_
    refine (elements_uncut _).bind fun _ => (shapeOf_uncut _).bind fun _ => ?_
    split
    · exact fault_uncut _
    · exact indexed_uncut _ _ _
  · refine (operands_uncut _).bind fun _ => (operands_uncut _).bind fun _ => ?_
    refine (elements_uncut _).bind fun _ => (elements_uncut _).bind fun _ => ?_
    split
    · exact indexed_uncut _ _ _
    · exact fault_uncut _
  · refine (operands_uncut _).bind fun _ => (operands_uncut _).bind fun _ => ?_
    exact (pushOperand_uncut _ _ _).bind fun _ => (pushOperand_uncut _ _ _).bind fun _ => .pure _
  · refine (operands_uncut _).bind fun _ => (operands_uncut _).bind fun _ => ?_
    refine (elements_uncut _).bind fun _ => (shapeOf_uncut _).bind fun _ => ?_
    simp only
    split
    · exact fault_uncut _
    · exact (indexed_uncut _ _ _).bind fun _ => (indexed_uncut _ _ _).bind fun _ => .pure _
  · refine (operands_uncut _).bind fun _ => (operands_uncut _).bind fun _ => ?_
    refine (elements_uncut _).bind fun _ => (shapeOf_uncut _).bind fun _ => ?_
    split
    · exact fault_uncut _
    · simp only
      split
      · exact fault_uncut _
      · refine (Grow.Uncut.fresh _).bind fun _ => (indexed_uncut _ _ _).bind fun _ => ?_
        exact (indexed_uncut _ _ _).bind fun _ => .pure _
  · refine (operands_uncut _).bind fun _ => (operand_uncut _).bind fun _ => ?_
    refine (elements_uncut _).bind fun _ => (shapeOf_uncut _).bind fun _ => ?_
    split
    · exact fault_uncut _
    · exact (Grow.Uncut.fresh _).bind fun _ => (indexed_uncut _ _ _).bind fun _ => .pure _
  · exact .pure _

end Rule

/-! ## Levels of a tree -/

namespace Expr

mutual

/-- The levels that a tree may span before all indices are pushed down: those of an index vector come
with it, and each node of an indexed operand may add two. -/
def span : Expr → Nat
  | .node .psi _ _ [v, operand] => v.span + 2 * operand.size
  | .node _ _ _ children => spanAll children + 1
termination_by structural e => e

/-- The levels of several trees side by side. -/
def spanAll : List Expr → Nat
  | [] => 0
  | c :: cs => max c.span (spanAll cs)
termination_by structural cs => cs

end

section
variable {e v X : Expr} {n : Nat}

@[simp] theorem span_psi (s : Option Shape) (p : Payload) (v X : Expr) :
    (Expr.node .psi s p [v, X]).span = v.span + 2 * X.size := rfl

@[simp] theorem steps_pair (s : Option Shape) (p : Payload) (v X : Expr) :
    (Expr.node .psi s p [v, X]).steps = X.size := rfl

theorem span_other (h : e.op ≠ .psi ∨ e.children.length ≠ 2) : e.span = spanAll e.children + 1 := by
  unfold span
  split
  · simp at h
  · rfl

theorem steps_other (h : e.op ≠ .psi ∨ e.children.length ≠ 2) : e.steps = 0 := by
  unfold steps
  split
  · simp at h
  · rfl

/-- A tree is an index vector with its operand, or it is something else. -/
theorem psi_or_other (e : Expr) :
    (∃ s p v X, e = .node .psi s p [v, X]) ∨ e.op ≠ .psi ∨ e.children.length ≠ 2 := by
  obtain ⟨op, s, p, children⟩ := e
  by_cases hop : op = .psi
  · by_cases hlength : children.length = 2
    · obtain ⟨v, X, rfl⟩ := List.length_eq_two.1 hlength
      exact .inl ⟨s, p, v, X, hop ▸ rfl⟩
    · exact .inr (.inr hlength)
  · exact .inr (.inl hop)

theorem span_two {op : Operator} (hop : op ≠ .psi) (s : Option Shape) (p : Payload) (l r : Expr) :
    (Expr.node op s p [l, r]).span = max l.span r.span + 1 := by
  have hspan : (Expr.node op s p [l, r]).span = spanAll [l, r] + 1 := span_other (.inl hop)
  simpa [spanAll] using hspan

@[simp] theorem span_one (op : Operator) (s : Option Shape) (p : Payload) (e : Expr) :
    (Expr.node op s p [e]).span = e.span + 1 := by
  rw [span_other (.inr (by simp))]
  simp [spanAll]

theorem span_le_spanAll {es : List Expr} (he : e ∈ es) : e.span ≤ spanAll es := by
  induction es with
  | nil => cases he
  | cons d ds ih =>
    rw [spanAll]
    rcases List.mem_cons.1 he with rfl | he
    · exact Nat.le_max_left _ _
    · exact Nat.le_trans (ih he) (Nat.le_max_right _ _)

theorem span_pos (e : Expr) : 0 < e.span := by
  rcases e.psi_or_other with ⟨s, p, v, X, rfl⟩ | hother
  · have := X.size_pos
    rw [span_psi]
    omega
  · rw [span_other hother]
    omega

theorem span_le_size (e : Expr) : e.span ≤ 2 * e.size := by
  induction e using Expr.induction_on_children with
  | node op s p children ih =>
    have hchildren : spanAll children ≤ 2 * sizeAll children := by
      clear * - ih
      induction children with
      | nil => exact Nat.le_refl _
      | cons c cs ihcs =>
        have hc := ih c (.head _)
        have hcs := ihcs fun c' hc' => ih c' (.tail _ hc')
        rw [spanAll, sizeAll]
        omega
    rcases (Expr.node op s p children).psi_or_other with ⟨_, _, v, X, heq⟩ | hother
    · cases heq
      have hv := ih v (.head _)
      rw [span_psi, size_two]
      omega
    · rw [span_other hother, children_node, size]
      omega

theorem steps_lt_size (e : Expr) : e.steps < e.size := by
  rcases e.psi_or_other with ⟨s, p, v, X, rfl⟩ | hother
  · rw [steps_pair, size_two]
    omega
  · rw [steps_other hother]
    exact e.size_pos

/-- No operand that is indexed in the tree has more than `n` nodes. -/
inductive Within (n : Nat) : Expr → Prop
  | node {e : Expr} : e.steps ≤ n → (∀ c ∈ e.children, Within n c) → Within n e

namespace Within

theorem steps_le (h : e.Within n) : e.steps ≤ n := by
  cases h with
  | node hsteps _ => exact hsteps

theorem child (h : e.Within n) {c : Expr} (hc : c ∈ e.children) : c.Within n := by
  cases h with
  | node _ hchildren => exact hchildren c hc

theorem of_size (h : e.size ≤ n) : e.Within n := by
  induction e using Expr.induction_on_children with
  | node op s p children ih =>
    refine .node (Nat.le_trans (Nat.le_of_lt (steps_lt_size _)) h) fun c hc => ih c hc ?_
    exact Nat.le_trans (Nat.le_of_lt (size_child hc)) h

theorem array (name : String) (s : Option Shape) : (Expr.array name s).Within n :=
  .node (Nat.zero_le n) fun _ hc => nomatch hc

theorem psi (hv : v.Within n) (hX : X.size ≤ n) (s : Option Shape) (p : Payload) :
    (Expr.node .psi s p [v, X]).Within n := by
  refine .node hX fun c hc => ?_
  rcases List.mem_pair.1 hc with rfl | rfl
  · exact hv
  · exact of_size hX

theorem two {op : Operator} (hop : op ≠ .psi) {l r : Expr} (hl : l.Within n) (hr : r.Within n)
    (s : Option Shape) (p : Payload) : (Expr.node op s p [l, r]).Within n := by
  have hsteps : (Expr.node op s p [l, r]).steps = 0 := steps_other (.inl hop)
  refine .node (by omega) fun c hc => ?_
  rcases List.mem_pair.1 hc with rfl | rfl
  · exact hl
  · exact hr

theorem one {op : Operator} (h : e.Within n) (s : Option Shape) (p : Payload) :
    (Expr.node op s p [e]).Within n := by
  have hsteps : (Expr.node op s p [e]).steps = 0 := steps_other (.inr (by simp))
  refine .node (by omega) fun c hc => ?_
  rw [List.mem_singleton.1 hc]
  exact h

end Within

end

end Expr

/-! ## A rewrite leaves less to do -/

section
variable {t t' : SymbolTable} {s : Option Shape} {v X e : Expr} {n : Nat}

theorem NewVector.within {elements : Shape} {u : Expr} (h : NewVector t elements u t') (n : Nat) :
    u.Within n ∧ u.span = 1 := by
  obtain ⟨-, name, rfl, -⟩ := h.literal
  exact ⟨.array _ _, rfl⟩

theorem PushesOperand.within (hv : v.Within n) (hX : X.size ≤ n) (h : PushesOperand t s v X e t') :
    e.Within n ∧ e.span ≤ v.span + 2 * X.size := by
  cases h with
  | leaf => exact ⟨.of_size hX, Nat.le_trans X.span_le_size (Nat.le_add_left _ _)⟩
  | scalar _ hu =>
    obtain ⟨hu', hspan⟩ := hu.within n
    have := v.span_pos
    exact ⟨.psi hu' hX _ _, by rw [Expr.binary, Expr.span_psi]; omega⟩
  | array => exact ⟨.psi hv hX _ _, Nat.le_refl _⟩

/-- **A rewrite leaves less to do**: fewer rewrites of the node, and no more levels below it. -/
theorem Pushes.dwindles (hv : v.Within n) (hX : X.size ≤ n) (h : Pushes t s v X e t') :
    e.Within n ∧ e.steps < X.size ∧ e.span ≤ v.span + 2 * X.size := by
  have hpos := v.span_pos
  cases h with
  | assign =>
    rw [Expr.size_two] at hX ⊢
    refine ⟨.two (by simp) (.psi hv (by omega) _ _) (.psi hv (by omega) _ _) _ _,
      Nat.lt_add_right _ Nat.one_pos, ?_⟩
    rw [Expr.binary, Expr.span_two (by simp)]
    simp only [Expr.binary, Expr.span_psi]
    omega
  | psi _ _ hu | permute _ _ _ hu =>
    rw [Expr.size_two] at hX ⊢
    obtain ⟨hu', hspan⟩ := hu.within n
    simp only [Expr.binary, Expr.span_psi, Expr.steps_pair]
    exact ⟨.psi hu' (by omega) _ _, by omega, by omega⟩
  | transpose _ _ _ hu =>
    rw [Expr.size_one] at hX ⊢
    obtain ⟨hu', hspan⟩ := hu.within n
    simp only [Expr.binary, Expr.span_psi, Expr.steps_pair]
    exact ⟨.psi hu' (by omega) _ _, by omega, by omega⟩
  | @elementwise op _ _ _ _ _ _ _ _ hop hl hr =>
    rw [Expr.size_two] at hX ⊢
    obtain ⟨hl', hsl⟩ := hl.within hv (by omega)
    obtain ⟨hr', hsr⟩ := hr.within hv (by omega)
    have hne : op ≠ .psi := by
      rintro rfl
      cases hop
    have hsteps : ∀ l r, (Expr.binary op s l r).steps = 0 := fun _ _ => Expr.steps_other (.inl hne)
    rw [hsteps, Expr.binary, Expr.span_two hne]
    exact ⟨.two hne hl' hr' _ _, by omega, by omega⟩
  | outer _ _ _ hu hw =>
    rw [Expr.size_two] at hX ⊢
    obtain ⟨hu', hsu⟩ := hu.within n
    obtain ⟨hw', hsw⟩ := hw.within n
    refine ⟨.two (by simp) (.psi hu' (by omega) _ _) (.psi hw' (by omega) _ _) _ _,
      Nat.lt_add_right _ Nat.one_pos, ?_⟩
    rw [Expr.binary, Expr.span_two (by simp)]
    simp only [Expr.binary, Expr.span_psi]
    omega
  | inner _ _ _ _ _ hu hw =>
    rw [Expr.size_two] at hX ⊢
    obtain ⟨hu', hsu⟩ := hu.within n
    obtain ⟨hw', hsw⟩ := hw.within n
    refine ⟨.one (.two (by simp) (.psi hu' (by omega) _ _) (.psi hw' (by omega) _ _) _ _) _ _,
      Nat.lt_add_right _ Nat.one_pos, ?_⟩
    rw [Expr.span_one, Expr.binary, Expr.span_two (by simp)]
    simp only [Expr.binary, Expr.span_psi]
    omega
  | reduce _ _ _ _ hu =>
    rw [Expr.size_one] at hX ⊢
    obtain ⟨hu', hspan⟩ := hu.within n
    refine ⟨.one (.psi hu' (by omega) _ _) _ _, Nat.lt_add_right _ Nat.one_pos, ?_⟩
    rw [Expr.span_one, Expr.binary, Expr.span_psi]
    omega

end

namespace Rule

/-- The payload of a psi plays no part in a rewrite. -/
theorem rewrite_pair (s : Option Shape) (p : Payload) (v X : Expr) (t : SymbolTable) :
    rewrite ⟨.node .psi s p [v, X], t⟩ = rewrite ⟨.binary .psi s v X, t⟩ := by
  unfold rewrite
  rw [find?_pair, find?_psi]
  obtain ⟨op, a, q, children⟩ := X
  cases op <;> rfl

/-- **Rewriting dwindles.** -/
theorem dwindles (limit : Nat) :
    Traversal.Dwindles rewrite limit (Expr.Within limit) Expr.steps Expr.span where
  levels_pos := Expr.span_pos
  steps_le h := h.steps_le
  step {c} hc := by
    have huncut : Uncut (fun _ => True) (rewrite c) := by
      unfold rewrite
      split
      · refine Uncut.map (P := fun _ => True) ?_ fun _ _ => trivial
        exact (apply_uncut _ _ _).bind fun _ _ _ => .ok trivial
      · exact .ok trivial
    generalize hr : rewrite c = r at huncut
    cases huncut with
    | error he => exact .error he
    | @ok r =>
      refine .ok fun c' hc' => ?_
      subst hc'
      obtain ⟨tree, t⟩ := c
      rcases tree.psi_or_other with ⟨s, p, v, X, rfl⟩ | hother
      · rw [rewrite_pair] at hr
        exact (rewrite_psi hr).dwindles (hc.child (.head _)) hc.steps_le
      · have hnone : find? tree = none := hother.elim find?_other find?_length
        rw [rewrite_none.2 hnone] at hr
        cases hr
  child {c e} hc hnone he := by
    refine ⟨hc.child he, ?_⟩
    obtain ⟨tree, t⟩ := c
    rcases tree.psi_or_other with ⟨s, p, v, X, rfl⟩ | hother
    · have hv := v.span_pos
      have hX := X.span_le_size
      have hpos := X.size_pos
      rcases List.mem_pair.1 he with rfl | rfl <;> rw [Expr.span_psi] <;> omega
    · rw [Expr.span_other hother]
      exact Nat.lt_succ_of_le (Expr.span_le_spanAll he)

end Rule

/-! ## Whole reductions -/

namespace NormalForm

theorem freshIndices_uncut : ∀ shape : Shape, (freshIndices shape).Uncut
  | [] => .pure _
  | _ :: shape => (Grow.Uncut.fresh _).bind fun _ => (freshIndices_uncut shape).bind fun _ => .pure _

theorem seedRoot_within {e : Expr} {n : Nat} (he : e.size ≤ n) (t : SymbolTable) :
    Uncut (fun p => p.1.Within n) ((seedRoot e).run t) := by
  unfold seedRoot
  split
  · exact .error rfl
  · rw [StateT.run_bind]
    refine (freshIndices_uncut _ t).bind fun p _ _ => ?_
    rw [StateT.run_bind]
    refine (Grow.Uncut.array _ _ p.2).bind fun q hq _ => ?_
    obtain ⟨name, -, -, hu⟩ := Grow.vector_ok hq
    refine .ok (.psi ?_ he _ _)
    rw [hu]
    exact .array _ _

/-- Indices are put over parts of the tree. -/
theorem seed_within {n : Nat} (e : Expr) (he : e.size ≤ n) (t : SymbolTable) :
    Uncut (fun p => p.1.Within n) ((seed e).run t) := by
  induction e using Expr.induction_on_children with
  | node op s p children ih =>
    unfold seed
    split
    · next guard consequent rest heq =>
      cases heq
      have hchild : ∀ child ∈ guard :: consequent :: rest,
          child.size < (Expr.node .condition s p (guard :: consequent :: rest)).size :=
        fun _ => Expr.size_child
      have hguard := hchild guard (.head _)
      have hconsequent := hchild consequent (.tail _ (.head _))
      rw [StateT.run_bind]
      refine (ih consequent (.tail _ (.head _)) (by omega)).bind fun q _ hq => ?_
      exact .ok (.two (by simp) (.of_size (by omega)) hq _ _)
    · exact .error rfl
    · exact .error rfl
    · exact seedRoot_within he t

end NormalForm

namespace Context

theorem reduce_agrees (c : Context) {m m' : Nat} (hle : m ≤ m') :
    Agrees (c.reduce m) (c.reduce m') := by
  unfold reduce
  refine (Agrees.refl _).bind fun seeded => ?_
  simp only [normalize, Traversal.preorder, Traversal.run_map]
  exact (Traversal.preorderAt_agrees hle).map _

theorem reduce_uncut (c : Context) {m : Nat} (hm : c.tree.size ≤ m) :
    Uncut (fun _ => True) (c.reduce m) := by
  have hseed : Uncut (fun seeded => seeded.tree.Within m) c.seed :=
    (NormalForm.seed_within c.tree hm c.table).bind fun _ _ h => .ok h
  refine hseed.bind fun seeded _ hwithin => ?_
  rw [normalize, Traversal.preorder, Traversal.run_map]
  exact ((Rule.dwindles m).preorderAt hwithin seeded.tree.span_le_size).map fun _ _ => trivial

/-- **Reduction ends by itself, and its limit can only cut it short.** A reduction that the limit `m`
does not stop has the same outcome, a result or an error, under every higher limit; as many rewrites
as the input has nodes are enough; and the depth that a traversal is given is enough under every
limit. -/
theorem reduce_limit (c : Context) :
    (∀ m m', m ≤ m' → (∀ path limit, c.reduce m ≠ .error (.nonconvergence path limit)) →
      c.reduce m' = c.reduce m) ∧
    (∀ m, c.tree.size ≤ m → ∀ path limit, c.reduce m ≠ .error (.nonconvergence path limit)) ∧
    ∀ m, c.reduce m ≠ .error .tooDeep := by
  have hmono : ∀ {m m'}, m ≤ m' → Agrees (c.reduce m) (c.reduce m') := fun hle => c.reduce_agrees hle
  refine ⟨fun m m' hle => hmono hle, fun m hm _ _ => (c.reduce_uncut hm).ne_error rfl, fun m hm => ?_⟩
  -- a run that is too deep is not cut short by its limit, so that it is too deep under all limits
  have hsame := hmono (Nat.le_max_left m c.tree.size) fun _ _ heq => by
    rw [hm] at heq
    cases heq
  exact (c.reduce_uncut (Nat.le_max_right m c.tree.size)).ne_error rfl (hsame.trans hm)

/-- An index that is pushed through three operators at the root: two rewrites are not enough there,
three are, and so are the six nodes of the tree. -/
theorem reduce_limit_three : ∃ s : Context,
    Context.parse "<0> psi (tran (A ^ <3 4> + B ^ <3 4>))" >>= Context.inferShapes = .ok s ∧
    s.tree.wellFormed = true ∧ s.tree.size = 6 ∧
    s.reduce 2 = .error (.nonconvergence [] 2) ∧ (s.reduce 3).isOk = true ∧
    s.reduce 100 = s.reduce 3 ∧ ∀ path limit, s.reduce 6 ≠ .error (.nonconvergence path limit) := by
  have hrun : (do
      let s : Context ← Context.parse "<0> psi (tran (A ^ <3 4> + B ^ <3 4>))" >>= Context.inferShapes
      return decide (s.tree.wellFormed = true ∧ s.tree.size = 6 ∧
        s.reduce 2 = Except.error (Error.nonconvergence [] 2) ∧ (s.reduce 3).isOk = true)) =
      .ok true := by
    decide +kernel
  obtain ⟨s, hs, hrun⟩ := except_bind_ok.1 hrun
  simp only [pure, Except.pure, Except.ok.injEq, decide_eq_true_eq] at hrun
  obtain ⟨hwf, hsize, htwo, hthree⟩ := hrun
  obtain ⟨hmono, henough, -⟩ := reduce_limit s
  refine ⟨s, hs, hwf, hsize, htwo, hthree, hmono 3 100 (by omega) fun path limit h => ?_,
    henough 6 (by omega)⟩
  rw [h] at hthree
  cases hthree

end Context

end PsiCalculus
