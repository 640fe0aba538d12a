import PsiCalculus.Proofs.Progress.Descent

/-!
# Reductions that succeed

A program of the fragment is an expression of it, or the assignment of one to a name
(`Expr.isProgram`). Its reduction starts with one index for each axis, so that the index vector at the
root is complete, and with it all others.

* `Infers.program`: a shaped program is a `Program`.
* `Context.reduce_attains`: the reduction of a program succeeds and leaves indices only at names and
  at their shapes and ranks (`Settled`).
-/

namespace PsiCalculus

open SymbolTable Traversal

/-! ## Programs -/

/-- An expression of the fragment, or its assignment to an array of the user. -/
def Expr.isProgram : Expr → Bool
  | .node .assign _ _ [target, value] => target.isName && value.inFragment
  | e => e.inFragment

/-- A shaped program and the number of axes of its value. -/
inductive Program (t : SymbolTable) : Expr → Nat → Prop
  | value {e : Expr} {n : Nat} : Ranked t e n → Program t e n
  | assign {name : String} {a : Option Shape} {s : Shape} {e : Expr} : Ranked t e s.length →
      Program t (.binary .assign (some s) (.array name a) e) s.length

/-- A reduced program: no rule is about a part of it. -/
inductive Settled (t : SymbolTable) : Expr → Prop
  | value {e : Expr} : Descent t Operator.Stuck e → Settled t e
  | assign {s a b : Option Shape} {v name : String} {index : Shape} {e : Expr} :
      t.get? v = some (.literal index) → Descent t Operator.Stuck e →
      Settled t (.binary .assign s (.binary .psi s (.array v a) (.array name b)) e)

section
variable {t : SymbolTable} {e e' : Expr} {n : Nat}

theorem Program.exists_shape (h : Program t e n) : ∃ s, e.shape = some s ∧ s.length = n := by
  cases h with
  | value he => exact he.exists_shape
  | assign => exact ⟨_, rfl, rfl⟩

theorem Program.op_ne_condition (h : Program t e n) : e.op ≠ .condition := by
  cases h with
  | value he =>
    cases he with
    | query hop => rcases hop with rfl | rfl <;> simp [Expr.unary]
    | leaf => simp [Expr.array]
    | transpose | reduce => simp [Expr.unary]
    | permute | psi | arith | outer | inner => simp [Expr.binary]
  | assign => simp [Expr.binary]

theorem Program.mono {t' : SymbolTable} (hx : Extends t t') (h : Program t e n) : Program t' e n := by
  cases h with
  | value he => exact .value (he.mono hx)
  | assign he => exact .assign (he.mono hx)

/-- Operators of trees whose indices are on their way down. -/
theorem Descent.op_ne {P : Operator → Prop} (h : Descent t P e) {op : Operator}
    (hop : op = .condition ∨ op = .assign) : e.op ≠ op := by
  rintro rfl
  cases h with
  | simple hs =>
    cases hs with
    | leaf => rcases hop with hop | hop <;> cases hop
    | query hquery => rcases hquery with rfl | rfl <;> rcases hop with hop | hop <;> cases hop
  | psi | arith | fold => rcases hop with hop | hop <;> cases hop

theorem Settled.op_ne_condition (h : Settled t e) : e.op ≠ .condition := by
  cases h with
  | value he => exact he.op_ne (.inl rfl)
  | assign => simp [Expr.binary]

theorem Settled.of_assign (h : Settled t e) (hop : e.op = .assign) :
    ∃ s a b v name index value,
      e = .binary .assign s (.binary .psi s (.array v a) (.array name b)) value ∧
      t.get? v = some (.literal index) ∧ Descent t Operator.Stuck value := by
  cases h with
  | value he => exact absurd hop (he.op_ne (.inr rfl))
  | assign hv hvalue => exact ⟨_, _, _, _, _, _, _, rfl, hv, hvalue⟩

theorem Settled.of_value (h : Settled t e) (hop : e.op ≠ .assign) : Descent t Operator.Stuck e := by
  cases h with
  | value he => exact he
  | assign => exact absurd rfl hop

/-- **A shaped program has a number of axes.** -/
theorem Infers.program (ht : t.Declared) {cs : List Check} (h : Infers t e e' cs)
    (hprogram : e.isProgram = true) : ∃ n, Program t e' n := by
  unfold Expr.isProgram at hprogram
  split at hprogram
  · next target value =>
    rw [Bool.and_eq_true] at hprogram
    cases h with
    | @binary _ _ _ _ _ _ _ _ a b _ hl hr ha hb hlaw =>
      cases hlaw with
      | assign hlen =>
        obtain ⟨name, a', rfl, -⟩ := hl.name hprogram.1
        obtain ⟨n, hn⟩ := hr.ranked ht hprogram.2
        obtain ⟨s, hs, rfl⟩ := hn.exists_shape
        cases hs.symm.trans hb
        rw [show b.length = (List.zipWith Shape.prefer a b).length by
          rw [List.length_zipWith, hlen, Nat.min_self]] at hn
        exact ⟨_, .assign hn⟩
  · obtain ⟨n, hn⟩ := h.ranked ht hprogram
    exact ⟨n, .value hn⟩

end

/-! ## Seeds -/

section
variable {bound n : Nat} {t : SymbolTable}

theorem NormalForm.freshIndices_attains : ∀ {shape : Shape} {t : SymbolTable},
    t.Room bound (shape.length + n) →
    Attains bound (fun p => p.2.Room bound n) ((freshIndices shape).run t)
  | [], _, h => .ok (h.mono (Nat.le_add_left _ _))
  | length :: shape, t, h => by
    have hroom : t.Room bound (shape.length + n + 1) := h.mono (by rw [List.length_cons]; omega)
    refine (Grow.fresh_attains (.index length) hroom).bind_run fun _ _ hroom₁ => ?_
    exact (freshIndices_attains hroom₁).bind_run fun _ _ hroom₂ => .ok hroom₂

theorem NormalForm.seedRoot_attains {e : Expr} {shape : Shape} (hs : e.shape = some shape)
    (h : t.Room bound (shape.length + 1 + n)) :
    Attains bound (fun p => p.2.Room bound n) ((seedRoot e).run t) := by
  unfold seedRoot
  rw [hs]
  have hroom : t.Room bound (shape.length + (n + 1)) := h.mono (by omega)
  refine (freshIndices_attains hroom).bind_run fun _ _ hroom₁ => ?_
  exact (Grow.array_attains _ _ hroom₁).bind_run fun _ _ hroom₂ => .ok hroom₂

end

/-! ## Whole reductions -/

section
variable {bound limit depth n : Nat} {t : SymbolTable} {s a : Option Shape} {v : String}
  {index : Shape} {X e : Expr}

/-- The context has a tree in `Q` and a table with room that extends `t`. -/
structure Reaches (bound n : Nat) (t : SymbolTable) (Q : SymbolTable → Expr → Prop) (c : Context) :
    Prop where
  extends_table : Extends t c.table
  room : c.table.Room bound n
  tree : Q c.table c.tree

/-- Indices come down from a complete index vector. -/
theorem Ranked.preorderAt_attains (hv : t.get? v = some (.literal index))
    (hX : Ranked t X index.length) (hlimit : X.size ≤ limit) (hdepth : 2 * X.size ≤ depth)
    (hroom : t.Room bound (3 * X.size + n)) (path : Path) :
    Attains bound (fun o => Reaches bound n t (Descent · Operator.Stuck) o.context ∧
      (o.changed = false → o.context.tree = .binary .psi s (.array v a) X))
      (run (preorderAt (.ofExcept Rule.rewrite) limit depth path
        ⟨.binary .psi s (.array v a) X, t⟩)) := by
  have hinv : Descends limit ⟨.binary .psi s (.array v a) X, t⟩ :=
    ⟨.psi hv hX trivial, Nat.mul_le_mul_left 2 hlimit⟩
  refine (Traversal.preorderAt_attains advances hinv hdepth hroom).imp fun o _ ho => ?_
  obtain ⟨hland, hroom', hsame⟩ := ho
  exact ⟨⟨hland.extends_table, hroom', hland.descent⟩, hsame⟩

/-- No rule is about an indexed array or about a tree in which nothing is indexed. -/
theorem preorderAt_quiet {e : Expr} {depth : Nat} {t : SymbolTable}
    (he : e.Still ∨ ∃ s v a name b, e = .binary .psi s (.array v a) (.array name b))
    (hdepth : e.size ≤ depth) (path : Path) :
    run (preorderAt (.ofExcept Rule.rewrite) limit depth path ⟨e, t⟩) = .ok ⟨⟨e, t⟩, false⟩ := by
  refine quiet_run (Q := fun e => e.Still ∨ ∃ s v a name b,
    e = .binary .psi s (.array v a) (.array name b)) (fun {e t} he => ?_) (fun {e c} he hc => ?_)
    he hdepth
  · rcases he with he | ⟨s, v, a, name, b, rfl⟩
    · exact Rule.rewrite_none.2 he.find?
    · exact Rule.rewrite_psi_none.2 rfl
  · rcases he with he | ⟨s, v, a, name, b, rfl⟩
    · exact .inl (he.child hc)
    · rcases List.mem_pair.1 hc with rfl | rfl
      · exact .inl (.array _ _)
      · exact .inl (.array _ _)

/-- The traversal of a seeded program succeeds. -/
theorem Program.preorderAt_attains (hv : t.get? v = some (.literal index))
    (he : Program t e index.length) (hlimit : e.size ≤ limit) (hdepth : 2 * e.size ≤ depth)
    (hroom : t.Room bound (3 * e.size + n)) (path : Path) :
    Attains bound (fun o => Reaches bound n t Settled o.context ∧
      (o.changed = false → o.context.tree = .binary .psi s (.array v a) e))
      (run (preorderAt (.ofExcept Rule.rewrite) limit depth path
        ⟨.binary .psi s (.array v a) e, t⟩)) := by
  generalize hn : index.length = m at he
  cases he with
  | value he =>
    refine (Ranked.preorderAt_attains hv (hn ▸ he) hlimit hdepth hroom path).imp fun o _ ho => ?_
    obtain ⟨⟨hx, hroom', hdescent⟩, hsame⟩ := ho
    exact ⟨⟨hx, hroom', .value hdescent⟩, hsame⟩
  | @assign name b shape e he =>
    have hsize : (Expr.binary .assign (some shape) (.array name b) e).size = e.size + 2 := by
      rw [Expr.binary, Expr.size_two, Expr.size_array]
      omega
    rw [hsize] at hlimit hdepth hroom
    obtain ⟨depth, rfl⟩ : ∃ d, depth = d + 1 := ⟨depth - 1, by omega⟩
    have hroot : ∀ {t l r}, Rule.rewrite ⟨.binary .assign s l r, t⟩ = .ok none :=
      Rule.rewrite_none.2 (Rule.find?_other (by simp [Expr.binary]))
    have hpushed : Rule.rewrite ⟨.binary .psi s (.array v a)
        (.binary .assign (some shape) (.array name b) e), t⟩ =
        .ok (some ⟨.binary .assign s (.binary .psi s (.array v a) (.array name b))
          (.binary .psi s (.array v a) e), t⟩) := rfl
    rw [replace_run hpushed hroot (by omega)]
    have hroom' : t.Room bound (3 * e.size + n) := hroom.mono (by omega)
    have hfirst : ∀ path, run (preorderAt (.ofExcept Rule.rewrite) limit depth path
        ⟨.binary .psi s (.array v a) (.array name b), t⟩) = .ok ⟨⟨_, t⟩, false⟩ :=
      preorderAt_quiet (.inr ⟨_, _, _, _, _, rfl⟩) (by simp [Expr.binary]; omega)
    have hsecond : ∀ path, Attains bound _ (run (preorderAt (.ofExcept Rule.rewrite) limit depth path
        ⟨.binary .psi s (.array v a) e, t⟩)) :=
      Ranked.preorderAt_attains hv (hn ▸ he) (by omega) (by omega) hroom'
    refine (second_attains rfl hroot hfirst hsecond path).map fun o ho => ?_
    obtain ⟨⟨value, htree, hreaches⟩, -⟩ := ho
    have hsettled : Settled o.context.table o.context.tree := by
      rw [htree]
      exact .assign (hreaches.extends_table.get? hv) hreaches.tree
    exact ⟨⟨hreaches.extends_table, hreaches.room, hsettled⟩, by simp⟩

end

/-- The program `e` under a complete index vector, in a table that has room for its reduction. -/
inductive Sown (bound n : Nat) (e : Expr) (s : Option Shape) : Context → Prop
  | intro {t : SymbolTable} {a : Option Shape} {v : String} {index : Shape} :
      t.get? v = some (.literal index) → Program t e index.length →
      t.Room bound (3 * e.size + n) → Sown bound n e s ⟨.binary .psi s (.array v a) e, t⟩

namespace Context

variable {bound limit k n : Nat} {s : Context} {e : Expr} {shape : Shape}

theorem seedRoot_attains (hcons : s.consequent = e) (he : Program s.table e shape.length)
    (hshape : e.shape = some shape)
    (hroom : s.table.Room bound (shape.length + 1 + (3 * e.size + n))) :
    Attains bound (fun p => Sown bound n e (some shape) ⟨p.1, p.2⟩)
      ((NormalForm.seedRoot e).run s.table) := by
  refine (NormalForm.seedRoot_attains hshape hroom).imp ?_
  rintro ⟨_, t₂⟩ hrun hroom'
  obtain ⟨shape', u, t₁, htree, rfl⟩ := seedRoot_ok hcons hrun
  cases hshape.symm.trans htree.shape_eq
  obtain ⟨hx, name, rfl, hname⟩ := htree.vector.literal
  refine .intro hname ?_ hroom'
  rw [List.length_map, htree.seeded.length_eq]
  exact he.mono (htree.seeded.extends_table.trans hx)

/-- **The reduction of a program succeeds**, unless the table runs out of names. -/
theorem reduce_attains {ds : List Check} (hw : Wrapped s.table e s.tree ds)
    (he : Program s.table e k) (hlimit : s.tree.size ≤ limit)
    (hroom : s.table.Room bound (k + 1 + (3 * e.size + n))) :
    Attains bound (fun r => r.table.Room bound n ∧ Settled r.table r.consequent)
      (s.reduce limit) := by
  have hop : e.op ≠ .condition := he.op_ne_condition
  have hcons : s.consequent = e := hw.consequent hop
  obtain ⟨shape, hshape, rfl⟩ := he.exists_shape
  have hsown := seedRoot_attains hcons he hshape hroom
  obtain ⟨tree, table⟩ := s
  cases hw with
  | bare =>
    have hseed : Attains bound (Sown bound n tree (some shape)) (seed ⟨tree, table⟩) := by
      refine grow_attains ?_
      rw [seed_other hop]
      exact hsown
    refine hseed.bind ?_
    rintro _ ⟨hv, hprogram, hroom'⟩
    rw [normalize, preorder, run_map]
    have hdepth : ∀ {s v}, 2 * tree.size ≤ 2 * (Expr.binary .psi s v tree).size := by
      intro s v
      simp only [Expr.binary, Expr.size_two]
      omega
    refine (hprogram.preorderAt_attains hv hlimit hdepth hroom' []).map fun o ho => ?_
    refine ⟨ho.1.room, ?_⟩
    rw [consequent, Wrapped.split?_bare ho.1.tree.op_ne_condition]
    exact ho.1.tree
  | @guarded g _ hg =>
    have hseed : Attains bound (fun c => ∃ e', c.tree = .binary .condition (some shape) g e' ∧
        Sown bound n e (some shape) ⟨e', c.table⟩)
        (seed ⟨.binary .condition e.shape g e, table⟩) := by
      refine grow_attains ?_
      rw [← seed_other hop] at hsown
      refine hsown.bind_run ?_
      rintro e' t₂ hsown'
      have hs : e'.shape = some shape := by
        cases hsown'
        rfl
      rw [hs]
      exact .ok ⟨e', rfl, hsown'⟩
    refine hseed.bind ?_
    rintro ⟨_, t₂⟩ ⟨_, rfl, @⟨_, a, v, index, hv, hprogram, hroom'⟩⟩
    rw [normalize, preorder, run_map]
    have hroot : ∀ {l r t}, Rule.rewrite ⟨.binary .condition (some shape) l r, t⟩ = .ok none :=
      Rule.rewrite_none.2 (Rule.find?_other (by simp [Expr.binary]))
    simp only [Expr.binary, Expr.size_two, Expr.size_array] at hlimit ⊢
    obtain ⟨depth, hdepth⟩ : ∃ d, 2 * (1 + (g.size + (1 + (1 + e.size)))) = d + 1 :=
      ⟨2 * (1 + (g.size + (1 + (1 + e.size)))) - 1, by omega⟩
    rw [hdepth]
    have hfirst : ∀ path, run (preorderAt (.ofExcept Rule.rewrite) limit depth path ⟨g, t₂⟩) =
        .ok ⟨⟨g, t₂⟩, false⟩ := preorderAt_quiet (.inl hg.still) (by omega)
    have hsecond : ∀ path, Attains bound _ (run (preorderAt (.ofExcept Rule.rewrite) limit depth path
        ⟨.binary .psi (some shape) (.array v a) e, t₂⟩)) :=
      hprogram.preorderAt_attains hv (by omega) (by omega) hroom'
    refine (second_attains rfl hroot hfirst hsecond []).map fun o ho => ?_
    obtain ⟨⟨e', htree, hreaches⟩, -⟩ := ho
    refine ⟨hreaches.room, ?_⟩
    rw [consequent, htree]
    exact hreaches.tree

end Context

end PsiCalculus
