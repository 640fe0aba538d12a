import PsiCalculus.Proofs.Capacity
import PsiCalculus.Proofs.NormalForm.Step
import PsiCalculus.Proofs.Shape.Node

/-!
# Axes that a vector permutes

`<p> tran X` makes axis `j` of `X` axis `p[j]` of the result. Shape inference scatters: it sends the
length of each axis of `X` to the place that `p` names. The rewrite of an indexed permutation gathers:
it reads the index over the result at the places that `p` names, which gives an index over `X`.

* `Infer.permutedShape_places`: inference answers the lengths as `p` places them.
* `Rule.pushPermute_run`: the rule indexes the operand by the elements that `p` gathers.
* `permute_scatter_gather`: inference admits exactly the permutations of the axes, and each element of
  the index comes to stand at the one axis whose length it was over.
-/

namespace PsiCalculus

open SymbolTable

/-- A vector of known integers places the lengths of the axes, and nothing is deferred. -/
theorem Infer.permutedShape_places {node l X : Expr} {p : List Int} {s r : Shape}
    {pending pending' : Pending} (hnode : node.children = [l, X])
    (hp : pending.table.valueOf l = some (.ofInts p)) (hs : X.shape = some s) :
    (permutedShape node).run pending = .ok (r, pending') ↔
      (p.length = s.length ∧ Shape.place? p s = some r) ∧ pending' = pending := by
  have hknown : ∀ name, l.arrayName? = some name → (pending.table.get? name).isSome := by
    intro name hname
    rw [valueOf, hname, Option.bind_some, Option.bind_eq_some_iff] at hp
    obtain ⟨symbol, hsymbol, -⟩ := hp
    rw [hsymbol]
    rfl
  rw [permutedShape_ok hnode hs hknown, hp]
  constructor
  · rintro ⟨⟨q, targets, hq, hints, hlen, hplaced⟩, rfl⟩
    cases hq
    cases (Shape.ints?_ofInts p).symm.trans hints
    exact ⟨⟨hlen, hplaced⟩, rfl⟩
  · rintro ⟨⟨hlen, hplaced⟩, rfl⟩
    exact ⟨⟨_, p, rfl, Shape.ints?_ofInts p, hlen, hplaced⟩, rfl⟩

namespace Rule

variable {t : SymbolTable}

theorem operands_run {node l r : Expr} (h : node.children = [l, r]) :
    (operands node).run t = .ok ((l, r), t) := by
  rw [operands, h]
  rfl

/-- Indexing enters the vector, unless there is no name for it. -/
theorem indexed_outcome (s : Option Shape) (elements : Shape) (X : Expr) :
    (t.freshId ≠ Text.maxWord ∧ ∃ u t',
        (indexed s elements X).run t = .ok (.binary .psi s u X, t') ∧ NewVector t elements u t') ∨
      (t.freshId = Text.maxWord ∧
        (indexed s elements X).run t = .error (.exhausted (t.freshName .array))) := by
  rcases Grow.fresh_outcome (t := t) (.array (some [.int elements.length]) (some elements)) with
    ⟨hne, t', hrun⟩ | ⟨hlast, hrun⟩
  · have hvector : (Grow.vector elements).run t =
        .ok (.array (t.freshName .array) (some [.int elements.length]), t') := by
      rw [Grow.vector, Grow.array, run_bind_of_ok hrun]
      rfl
    refine .inl ⟨hne, _, t', ?_, ⟨Grow.vector_ok hvector⟩⟩
    rw [indexed, run_bind_of_ok hvector]
    rfl
  · refine .inr ⟨hlast, ?_⟩
    rw [indexed, Grow.vector, Grow.array, StateT.run_bind, StateT.run_bind, hrun]
    rfl

/-- **Indexing permuted axes** indexes the operand by what the permutation gathers from the index. -/
theorem pushPermute_run {root v node l X : Expr} {p : List Int} {index x : Shape}
    (hroot : root.children = [v, node]) (hnode : node.children = [l, X])
    (hv : t.valueOf v = some index) (hl : t.valueOf l = some (.ofInts p))
    (hx : Shape.Gathers p index x) :
    (pushPermute root).run t = (indexed root.shape x X).run t := by
  have harranged := (Shape.arrange?_eq_some_iff (Shape.ints?_ofInts p)).2 hx
  rw [pushPermute, run_bind_of_ok (operands_run hroot)]
  simp only
  rw [run_bind_of_ok (operands_run hnode)]
  simp only
  rw [run_bind_of_ok (elements_run hv), run_bind_of_ok (elements_run hl), harranged]

end Rule

/-- **Axes are permuted as the vector says**: inference succeeds exactly for the permutations of the
axes of the operand, and sends the length of axis `j` to place `p[j]`. From an index over the result
the rewrite takes element `p[j]` for axis `j`. So each element is used once, for an axis of the length
that it was over, and nothing but a missing name keeps the rewrite from entering the new index. -/
theorem permute_scatter_gather {node l X : Expr} {p : List Int} {s : Shape} {pending : Pending}
    (hnode : node.children = [l, X]) (hp : pending.table.valueOf l = some (.ofInts p))
    (hs : X.shape = some s) :
    ((∃ out, (Infer.permutedShape node).run pending = .ok out) ↔
      p.length = s.length ∧ p.Perm (Tensor.places s.length)) ∧
    ∀ r pending', (Infer.permutedShape node).run pending = .ok (r, pending') →
      pending' = pending ∧ r.length = s.length ∧
      (∀ j < s.length, ∃ a < r.length, p[j]? = some (a : Int) ∧ r[a]? = s[j]?) ∧
      ∀ (t : SymbolTable) (root v node' : Expr) (i : Shape), root.children = [v, node'] →
        node'.children = [l, X] → t.valueOf v = some i → t.valueOf l = some (.ofInts p) →
        i.length = r.length →
        ∃ x : Shape, x.length = s.length ∧
          (∀ j < s.length, ∃ a < i.length, p[j]? = some (a : Int) ∧ x[j]? = i[a]? ∧
            s[j]? = r[a]?) ∧
          (∀ a < i.length, ∃! j : Nat, p[j]? = some (a : Int)) ∧ x.Perm i ∧
          ((t.freshId ≠ Text.maxWord ∧ ∃ u t',
              (Rule.pushPermute root).run t = .ok (.binary .psi root.shape u X, t') ∧
                NewVector t x u t') ∨
            (t.freshId = Text.maxWord ∧
              (Rule.pushPermute root).run t = .error (.exhausted (t.freshName .array)))) := by
  have hplaces : ∀ {r pending'}, (Infer.permutedShape node).run pending = .ok (r, pending') ↔
      (p.length = s.length ∧ Shape.place? p s = some r) ∧ pending' = pending :=
    Infer.permutedShape_places hnode hp hs
  refine ⟨⟨fun ⟨⟨r, pending'⟩, h⟩ => ?_, fun ⟨hlen, hperm⟩ => ?_⟩, fun r pending' h => ?_⟩
  · obtain ⟨⟨hlen, hplaced⟩, -⟩ := hplaces.1 h
    exact ⟨hlen, (Shape.gathers_of_place? hlen hplaced).1⟩
  · obtain ⟨placed, hplaced⟩ := Shape.exists_place? hlen hperm
    exact ⟨_, hplaces.2 ⟨⟨hlen, hplaced⟩, rfl⟩⟩
  obtain ⟨⟨hlen, hplaced⟩, rfl⟩ := hplaces.1 h
  obtain ⟨hperm, hrlen, hscatter⟩ := Shape.gathers_of_place? hlen hplaced
  refine ⟨rfl, hrlen, fun j hj => ?_, fun t root v node' i hroot hnode' hv hl hi => ?_⟩
  · obtain ⟨a, ha, hja⟩ := Tensor.exists_place hperm hj
    exact ⟨a, hrlen ▸ ha, hja, (hscatter.getElem?_eq hja).symm⟩
  -- the items of `i` stand over those of `r`, and both are gathered by the same targets
  have hilen : i.length = s.length := hi.trans hrlen
  obtain ⟨x, hgather⟩ : ∃ x, Shape.Gathers p i x := Shape.Gathers.exists_of_perm (hilen ▸ hperm)
  refine ⟨x, hgather.length_eq.trans hlen, fun j hj => ?_, fun a ha => ?_,
    hgather.perm hperm (Nat.le_of_eq hilen), ?_⟩
  · obtain ⟨a, ha, hja⟩ := Tensor.exists_place hperm hj
    exact ⟨a, hilen ▸ ha, hja, hgather.getElem?_eq hja, hscatter.getElem?_eq hja⟩
  · exact Tensor.existsUnique_target hperm (hilen ▸ ha)
  · rw [Rule.pushPermute_run hroot hnode' hv hl hgather]
    exact Rule.indexed_outcome root.shape x X

/-- Three axes moved around, one of them symbolic: the lengths `3 n 4` become `n 4 3`, and an index
`i j k` over these one over the operand, `k i j`. -/
theorem permute_scatter_gather_cycle :
    let X := Expr.array "A" (some [.int 3, .named "n", .int 4])
    let node := Expr.binary .permute none (.array "_a0" (some [.int 3])) X
    let table : SymbolTable := ⟨[("_a0", .literal (.ofInts [2, 0, 1])), ("n", .array (some []) none),
      ("A", .array X.shape none), ("_i1", .index (.named "n")), ("_i2", .index (.int 4)),
      ("_i3", .index (.int 3)), ("_a4", .literal [.named "_i1", .named "_i2", .named "_i3"])], 5⟩
    let r : Shape := [.named "n", .int 4, .int 3]
    let i : Shape := [.named "_i1", .named "_i2", .named "_i3"]
    let root := Expr.binary .psi (some r) (.array "_a4" (some [.int 3])) (node.withShape (some r))
    (Infer.permutedShape node).run { table } = .ok (r, { table }) ∧
      ∃ x : Shape, x = [.named "_i3", .named "_i1", .named "_i2"] ∧ x.Perm i ∧ ∃ u t',
        (Rule.pushPermute root).run table = .ok (.binary .psi (some r) u X, t') ∧
          NewVector table x u t' := by
  intro X node table r i root
  have hnode : node.children = [.array "_a0" (some [.int 3]), X] := rfl
  have hrun : (Infer.permutedShape node).run { table } = .ok (r, { table }) := rfl
  obtain ⟨-, -, -, hgather⟩ := (permute_scatter_gather hnode rfl rfl).2 r { table } hrun
  obtain ⟨x, hxlen, hx, -, hperm, houtcome⟩ :=
    hgather table root (.array "_a4" (some [.int 3])) (node.withShape (some r)) i rfl rfl rfl rfl rfl
  have hentry : ∀ j a : Nat, j < 3 → [2, 0, 1][j]? = some (a : Int) → x[j]? = i[a]? := by
    intro j a hj hja
    obtain ⟨a', -, hja', hxa, -⟩ := hx j hj
    obtain rfl := Int.ofNat.inj (Option.some.inj (hja'.symm.trans hja))
    exact hxa
  have hfirst := hentry 0 2 (by decide) rfl
  have hsecond := hentry 1 0 (by decide) rfl
  have hthird := hentry 2 1 (by decide) rfl
  obtain ⟨x₁, x₂, x₃, rfl⟩ := List.length_eq_three.1 hxlen
  cases hfirst
  cases hsecond
  cases hthird
  refine ⟨hrun, _, rfl, hperm, ?_⟩
  rcases houtcome with ⟨-, hpush⟩ | ⟨hlast, -⟩
  · exact hpush
  · exact absurd hlast (by decide +kernel)

end PsiCalculus
