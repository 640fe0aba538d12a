import PsiCalculus.Proofs.NormalForm.Step
import PsiCalculus.Proofs.Shape.Hoisting

/-!
# Seeded indices

Reduction starts by indexing the tree with one fresh index for each axis: `Context.seeds` are their
names. They enter the table in the order of the axes, each with the length of its axis as the bound
(`Seeded`).

* `Context.reduce_arrives`: where rewriting arrives from the seeded tree, the whole reduction does.
* `Context.reduce_rel`: what rewriting preserves, the whole reduction preserves, from the seeded tree
  to the reduced one; a guard at the root stays.
-/

namespace PsiCalculus

open SymbolTable

/-- Nothing in the tree is indexed, so that no rule is about a part of it. -/
def Expr.Still (e : Expr) : Prop := .psi ∉ e.operators

namespace Expr.Still

theorem child {e c : Expr} (h : e.Still) (hc : c ∈ e.children) : c.Still := by
  obtain ⟨op, shape, payload, children⟩ := e
  exact fun hpsi => h (Expr.operators_child hc hpsi)

theorem find? {e : Expr} (h : e.Still) : Rule.find? e = none := by
  refine Rule.find?_other fun hop => h ?_
  obtain ⟨op, shape, payload, children⟩ := e
  rw [Expr.operators]
  exact hop ▸ .head _

theorem array (name : String) (shape : Option Shape) : (Expr.array name shape).Still := by
  simp [Still, Expr.array, Expr.operators, Expr.operatorsAll]

theorem quiet : Traversal.Preserves Rule.rewrite Eq (fun c => c.tree.Still) Eq :=
  .quiet (fun h => Rule.rewrite_none.2 h.find?) (fun h hc => h.child hc)

end Expr.Still

/-- Guards index nothing. -/
theorem Guards.still {t : SymbolTable} {g : Expr} {cs : List Check} (h : Guards t g cs) :
    g.Still := by
  have hstands : ∀ {e x}, Stands t e x → e.Still := by
    intro e x hs
    cases hs <;> exact .array _ _
  induction h with
  | one hd =>
    cases hd with
    | compare hl hr =>
      simpa [Expr.Still, Expr.binary, Expr.operators, Expr.operatorsAll] using
        ⟨hstands hl, hstands hr⟩
  | and _ _ ihl ihr =>
    simpa [Expr.Still, Expr.binary, Expr.operators, Expr.operatorsAll] using ⟨ihl, ihr⟩

/-! ## Fresh indices -/

/-- The table `t'` is `t` with an index under each name, below the length at its place. -/
inductive Seeded : SymbolTable → Shape → List String → SymbolTable → Prop
  | nil {t : SymbolTable} : Seeded t [] [] t
  | cons {t t₁ t₂ : SymbolTable} {bound : Element} {shape : Shape} {name : String}
      {names : List String} : isGenerated name = true → Adds t name (.index bound) t₁ →
      Seeded t₁ shape names t₂ → Seeded t (bound :: shape) (name :: names) t₂

theorem NormalForm.freshIndices_ok : ∀ {shape indices : Shape} {t t' : SymbolTable},
    (freshIndices shape).run t = .ok (indices, t') →
    Seeded t shape (Shape.names indices) t' ∧ indices = (Shape.names indices).map .named
  | [], _, _, _, h => by
    cases pure_ok.1 h
    exact ⟨.nil, rfl⟩
  | bound :: shape, indices, t, t', h => by
    simp only [freshIndices, bind_ok, pure_ok, Prod.mk.injEq] at h
    obtain ⟨name, t₁, hname, rest, t₂, hrest, rfl, rfl⟩ := h
    obtain ⟨hg, hadds⟩ := Grow.index_ok hname
    obtain ⟨hseeded, hrest⟩ := freshIndices_ok hrest
    have hnames : Shape.names (.named name :: rest) = name :: Shape.names rest := rfl
    rw [hnames, List.map_cons, ← hrest]
    exact ⟨.cons hg hadds hseeded, rfl⟩

namespace Seeded

variable {t t' : SymbolTable} {shape : Shape} {names : List String}

theorem length_eq (h : Seeded t shape names t') : names.length = shape.length := by
  induction h with
  | nil => rfl
  | cons _ _ _ ih => rw [List.length_cons, List.length_cons, ih]

theorem grows (h : Seeded t shape names t') (hd : ∀ x ∈ shape, t.Dimension x) : Grows t t' := by
  induction h with
  | nil => exact .refl _
  | cons hg hadds _ ih =>
    refine (hadds.sound_grows hg fun _ => .index hg (hd _ (.head _))).trans (ih fun x hx => ?_)
    exact (hd x (.tail _ hx)).mono hadds.grows

theorem entries (h : Seeded t shape names t') :
    t'.entries = t.entries ++ List.zipWith (fun name bound => (name, .index bound)) names shape := by
  induction h with
  | nil => simp
  | cons _ hadds _ ih =>
    rw [ih, hadds.entries, List.append_assoc]
    rfl

theorem extends_table (h : Seeded t shape names t') : Extends t t' := ⟨_, h.entries.symm⟩

theorem get? (h : Seeded t shape names t') :
    List.Forall₂ (fun name bound => t'.get? name = some (.index bound)) names shape := by
  induction h with
  | nil => exact .nil
  | cons _ hadds hrest ih => exact .cons (hrest.extends_table.get? hadds.get?_self) ih

theorem generated (h : Seeded t shape names t') : ∀ name ∈ names, isGenerated name = true := by
  induction h with
  | nil => simp
  | cons hg _ _ ih => exact List.forall_mem_cons.2 ⟨hg, ih⟩

theorem fresh (h : Seeded t shape names t') : ∀ name ∈ names, t.get? name = none := by
  induction h with
  | nil => simp
  | cons hg hadds _ ih =>
    refine List.forall_mem_cons.2 ⟨hadds.fresh, fun name hn => ?_⟩
    have := ih name hn
    rw [hadds.get?_other] at this
    · exact this
    · rintro rfl
      rw [hadds.get?_self] at this
      cases this

theorem nodup (h : Seeded t shape names t') : names.Nodup := by
  induction h with
  | nil => exact List.nodup_nil
  | cons _ hadds hrest ih =>
    refine List.nodup_cons.2 ⟨fun hmem => ?_, ih⟩
    have := hrest.fresh _ hmem
    rw [hadds.get?_self] at this
    cases this

theorem isIndex (h : Seeded t shape names t') {name : String} (hi : t'.isIndex name = true) :
    t.isIndex name = true ∨ name ∈ names := by
  induction h with
  | nil => exact .inl hi
  | @cons t t₁ _ _ _ head names _ hadds _ ih =>
    rcases ih hi with hi | hn
    · by_cases hne : name = head
      · exact .inr (hne ▸ .head _)
      · exact .inl (hadds.isIndex_other hne ▸ hi)
    · exact .inr (.tail _ hn)

theorem map_fst (h : Seeded t shape names t') :
    (List.zipWith (fun name bound => (name, Symbol.index bound)) names shape).map Prod.fst =
      names := by
  induction h with
  | nil => rfl
  | cons _ _ _ ih => rw [List.zipWith_cons_cons, List.map_cons, ih]

/-- Each name is an index of the table. -/
theorem index (h : Seeded t shape names t') :
    ∀ x ∈ names.map Element.named, t'.Dimension x ∨ t'.IndexElement x := by
  intro x hx
  obtain ⟨name, hn, rfl⟩ := List.mem_map.1 hx
  obtain ⟨bound, -, hb⟩ := exists_of_mem_right h.get?.flip hn
  exact .inr ⟨name, bound, rfl, hb⟩

end Seeded

/-! ## From the seeded tree to the reduced one -/

namespace Context

/-- The names of the indices that reduction starts with, one for each axis. -/
def seeds (c : Context) : List String :=
  match (NormalForm.freshIndices (c.consequent.shape.getD [])).run c.table with
  | .ok (indices, _) => Shape.names indices
  | .error _ => []

/-- The tree that reduction starts with. -/
structure SeededTree (c : Context) (e : Expr) (shape : Shape) (u : Expr) (t₁ t₂ : SymbolTable) :
    Prop where
  shape_eq : e.shape = some shape
  seeded : Seeded c.table shape c.seeds t₁
  vector : NewVector t₁ (c.seeds.map .named) u t₂

theorem seedRoot_ok {c : Context} {e seeded : Expr} {t₂ : SymbolTable} (he : c.consequent = e)
    (h : (NormalForm.seedRoot e).run c.table = .ok (seeded, t₂)) :
    ∃ shape u t₁, c.SeededTree e shape u t₁ t₂ ∧ seeded = .binary .psi (some shape) u e := by
  unfold NormalForm.seedRoot at h
  split at h
  · exact (throw_ok.1 h).elim
  · next shape hshape =>
    simp only [bind_ok, pure_ok, Prod.mk.injEq] at h
    obtain ⟨indices, t₁, hindices, u, _, hu, rfl, rfl⟩ := h
    obtain ⟨hseeded, hnames⟩ := NormalForm.freshIndices_ok hindices
    have hseeds : c.seeds = Shape.names indices := by
      unfold seeds
      rw [he, hshape, Option.getD_some, show (NormalForm.freshIndices shape).run c.table = _ from hindices]
    rw [hnames, ← hseeds] at hu
    exact ⟨shape, u, t₁, ⟨hshape, hseeds ▸ hseeded, ⟨Grow.vector_ok hu⟩⟩, rfl⟩

theorem seed_other {e : Expr} (h : e.op ≠ .condition) :
    NormalForm.seed e = NormalForm.seedRoot e := by
  obtain ⟨op, shape, payload, children⟩ := e
  rw [NormalForm.seed]
  all_goals
    intros
    rename_i heq
    cases heq
    exact h rfl

/-- **Reduction arrives where rewriting does**, from the seeded tree; a guard at the root stays. -/
theorem reduce_arrives {limit : Nat} {s r : Context} {e : Expr} {ds : List Check}
    (he : e.op ≠ .condition) (hw : Wrapped s.table e s.tree ds) (hr : s.reduce limit = .ok r)
    {P : Shape → Expr → SymbolTable → SymbolTable → Context → Prop}
    (harrives : ∀ {shape u t₁ t₂}, s.SeededTree e shape u t₁ t₂ →
      Traversal.Arrives Rule.rewrite ⟨.binary .psi (some shape) u e, t₂⟩ (P shape u t₁ t₂))
    (hop : ∀ {shape u t₁ t₂ c'}, s.SeededTree e shape u t₁ t₂ → P shape u t₁ t₂ c' →
      c'.tree.op ≠ .condition) :
    ∃ shape u t₁ t₂, s.SeededTree e shape u t₁ t₂ ∧ P shape u t₁ t₂ ⟨r.consequent, r.table⟩ ∧
      r.guard? = s.guard? ∧ (r.tree.op = .condition → (Condition.split? r.tree).isSome) := by
  have hcons : s.consequent = e := hw.consequent he
  unfold reduce at hr
  obtain ⟨c₁, hseed, hnorm⟩ := except_bind_ok.1 hr
  rw [seed, Context.grow_ok] at hseed
  obtain ⟨tree, table⟩ := s
  cases hw with
  | bare =>
    rw [seed_other he] at hseed
    obtain ⟨shape, u, t₁, hseeded, htree⟩ := seedRoot_ok hcons hseed
    obtain ⟨tree₁, t₂⟩ := c₁
    cases htree
    have hP := (harrives hseeded).preorder hnorm
    have hr := hop hseeded hP
    refine ⟨shape, u, t₁, t₂, hseeded, ?_, ?_, fun h => absurd h hr⟩
    · rw [show r.consequent = r.tree by
        rw [consequent, Wrapped.split?_bare hr, Option.elim_none]]
      exact hP
    · rw [guard?, guard?, Wrapped.split?_bare hr, Wrapped.split?_bare he]
  | @guarded g _ hg =>
    simp only [Expr.binary, NormalForm.seed, bind_ok, pure_ok, Prod.mk.injEq] at hseed
    obtain ⟨seeded, _, hseed, htree, rfl⟩ := hseed
    rw [seed_other he] at hseed
    obtain ⟨shape, u, t₁, hseeded, rfl⟩ := seedRoot_ok hcons hseed
    obtain ⟨tree₁, t₂⟩ := c₁
    cases htree
    have hroot : ∀ {a p cs t}, Rule.rewrite ⟨.node .condition a p cs, t⟩ = .ok none :=
      Rule.rewrite_none.2 (Rule.find?_other (by simp))
    obtain ⟨e', htree', hP⟩ :=
      ((harrives hseeded).second Expr.Still.quiet hroot hg.still).preorder hnorm
    obtain ⟨rtree, rtable⟩ := r
    cases htree'
    exact ⟨shape, u, t₁, t₂, hseeded, hP, rfl, fun _ => rfl⟩

/-- **Reduction preserves what rewriting preserves.** -/
theorem reduce_rel {G : SymbolTable → SymbolTable → Prop} {Inv : Context → Prop}
    {Rel : Context → Context → Prop} (hp : Traversal.Preserves Rule.rewrite G Inv Rel)
    {limit : Nat} {s r : Context} {e : Expr} {ds : List Check} (he : e.op ≠ .condition)
    (hw : Wrapped s.table e s.tree ds) (hr : s.reduce limit = .ok r)
    (hinv : ∀ {shape u t₁ t₂}, s.SeededTree e shape u t₁ t₂ →
      Inv ⟨.binary .psi (some shape) u e, t₂⟩)
    (hop : ∀ {shape u t₁ t₂ c'}, s.SeededTree e shape u t₁ t₂ →
      Rel ⟨.binary .psi (some shape) u e, t₂⟩ c' → c'.tree.op ≠ .condition) :
    ∃ shape u t₁ t₂, s.SeededTree e shape u t₁ t₂ ∧
      Rel ⟨.binary .psi (some shape) u e, t₂⟩ ⟨r.consequent, r.table⟩ ∧ r.guard? = s.guard? ∧
      (r.tree.op = .condition → (Condition.split? r.tree).isSome) :=
  reduce_arrives he hw hr (fun h => hp.arrives (hinv h)) hop

end Context

end PsiCalculus
