import PsiCalculus.Proofs.Shape.Law

/-!
# Runs of shape inference at one node

When the computation of a node's shape succeeds, given the shapes of the operands. The lemmas say
what remains to be run after the operands are looked up: `matchShapes`, `checkBounds` or `matchInner`
for the operators that check something, nothing for the others. Of permuted axes the run is given as
a whole, with its faults (`permutedShape_run`).
-/

namespace PsiCalculus

open SymbolTable

namespace Infer

variable {p p' : Pending}

theorem fault_ok {α : Type} {f : ShapeFault} {r : α × Pending} :
    (fault f : Infer α).run p = .ok r ↔ False := throw_ok

/-! ## Operands -/

theorem operand_ok {node : Expr} {i : Nat} {e : Expr} :
    (operand node i).run p = .ok (e, p') ↔ node.children[i]? = some e ∧ p' = p := by
  unfold operand
  cases node.children[i]? with
  | none => simp [fault_ok]
  | some child =>
    rw [pure_ok]
    simp [eq_comm]

theorem operandShape_ok {node : Expr} {i : Nat} {s : Shape} :
    (operandShape node i).run p = .ok (s, p') ↔
      (∃ e, node.children[i]? = some e ∧ e.shape = some s) ∧ p' = p := by
  unfold operandShape
  simp only [bind_ok, operand_ok]
  constructor
  · rintro ⟨e, _, ⟨he, rfl⟩, h⟩
    cases hs : e.shape with
    | none =>
      rw [hs] at h
      exact (fault_ok.1 h).elim
    | some s' =>
      rw [hs] at h
      cases pure_ok.1 h
      exact ⟨⟨e, he, hs⟩, rfl⟩
  · rintro ⟨⟨e, he, hs⟩, rfl⟩
    refine ⟨e, _, ⟨he, rfl⟩, ?_⟩
    rw [hs]
    exact pure_ok.2 rfl

theorem operandValue_ok {node : Expr} {i : Nat} {v : Option Shape} :
    (operandValue node i).run p = .ok (v, p') ↔
      (∃ e, node.children[i]? = some e ∧ v = p.table.valueOf e ∧
        ∀ name, e.arrayName? = some name → (p.table.get? name).isSome) ∧ p' = p := by
  unfold operandValue
  simp only [bind_ok, operand_ok]
  constructor
  · rintro ⟨e, _, ⟨he, rfl⟩, h⟩
    cases hn : e.arrayName? with
    | none =>
      rw [hn] at h
      cases pure_ok.1 h
      exact ⟨⟨e, he, by simp [valueOf, hn], by simp [hn]⟩, rfl⟩
    | some name =>
      rw [hn] at h
      simp only [bind_ok, PsiCalculus.get_ok, lift_ok, SymbolTable.get_ok, pure_ok,
        Prod.mk.injEq] at h
      obtain ⟨_, _, ⟨rfl, rfl⟩, s, _, ⟨_, hs, rfl, rfl⟩, rfl, rfl⟩ := h
      exact ⟨⟨e, he, by simp [valueOf, hn, hs], by simp [hn, hs]⟩, rfl⟩
  · rintro ⟨⟨e, he, rfl, hsome⟩, rfl⟩
    refine ⟨e, _, ⟨he, rfl⟩, ?_⟩
    cases hn : e.arrayName? with
    | none => exact pure_ok.2 (by simp [valueOf, hn])
    | some name =>
      obtain ⟨s, hs⟩ := Option.isSome_iff_exists.1 (hsome name hn)
      simp only [bind_ok, PsiCalculus.get_ok, lift_ok, SymbolTable.get_ok, pure_ok,
        Prod.mk.injEq]
      exact ⟨_, _, ⟨rfl, rfl⟩, s, _, ⟨_, hs, rfl, rfl⟩, by simp [valueOf, hn, hs], rfl⟩

theorem indexLength_ok {s : Shape} {k : Nat} :
    (indexLength s).run p = .ok (k, p') ↔
      (∃ n, s = [.int n] ∧ k = Shape.indexRank n) ∧ p' = p := by
  unfold indexLength
  split
  · rw [pure_ok]
    simp [Shape.indexRank, eq_comm]
  · simp [fault_ok]
  · next hne _ =>
    simp only [fault_ok, false_iff, not_and]
    rintro ⟨n, rfl, -⟩
    exact (hne n rfl).elim

/-! ## Operators -/

section Permute
variable {node l r : Expr} {b s : Shape}

/-- What becomes of permuted axes, faults included. -/
theorem permutedShape_run (hnode : node.children = [l, r]) (hb : r.shape = some b)
    (hn : ∀ name, l.arrayName? = some name → (p.table.get? name).isSome) :
    (permutedShape node).run p = match (p.table.valueOf l).bind Shape.ints? with
      | none => .error (.shape [] .permutationUnknown)
      | some targets =>
        if targets.length ≠ b.length then
          .error (.shape [] (.permutationLength targets.length b.length))
        else match Shape.place? targets b with
          | some placed => .ok (placed, p)
          | none => .error (.shape [] (.notPermutation b.length targets)) := by
  have hshape : (operandShape node 1).run p = .ok (b, p) :=
    operandShape_ok.2 ⟨⟨r, by rw [hnode]; rfl, hb⟩, rfl⟩
  have hvalue : (operandValue node 0).run p = .ok (p.table.valueOf l, p) :=
    operandValue_ok.2 ⟨⟨l, by rw [hnode]; rfl, rfl, hn⟩, rfl⟩
  rw [permutedShape, run_bind_of_ok hshape, run_bind_of_ok hvalue]
  cases (p.table.valueOf l).bind Shape.ints? with
  | none => rfl
  | some targets =>
    simp only
    split
    · rfl
    · cases Shape.place? targets b <;> rfl

theorem permutedShape_ok (hnode : node.children = [l, r]) (hb : r.shape = some b)
    (hn : ∀ name, l.arrayName? = some name → (p.table.get? name).isSome) :
    (permutedShape node).run p = .ok (s, p') ↔
      (∃ q targets, p.table.valueOf l = some q ∧ Shape.ints? q = some targets ∧
        targets.length = b.length ∧ Shape.place? targets b = some s) ∧ p' = p := by
  rw [permutedShape_run hnode hb hn]
  constructor
  · intro h
    split at h
    · cases h
    · next targets htargets =>
      obtain ⟨q, hq, hints⟩ := Option.bind_eq_some_iff.1 htargets
      split at h
      · cases h
      · next hlen =>
        split at h
        · next placed hplaced =>
          cases h
          exact ⟨⟨q, targets, hq, hints, Decidable.not_not.1 hlen, hplaced⟩, rfl⟩
        · cases h
  · rintro ⟨⟨q, targets, hq, hints, hlen, hplaced⟩, rfl⟩
    simp only [hq, Option.bind_some, hints, hlen, ne_eq, not_true_eq_false, if_false, hplaced]

end Permute

theorem nodeShape_unary {op : Operator} {e : Expr} {s shape : Shape} (hop : op.leads = true)
    (hs : e.shape = some s) (hne : reducedScalar? (.unary op none e) = none) :
    (nodeShape (.unary op none e)).run p = .ok (shape, p') ↔ UnaryLaw op s shape ∧ p' = p := by
  have hoperand : ∀ {q q' : Pending} {a : Shape},
      (operandShape (.unary op none e) 0).run q = .ok (a, q') ↔ a = s ∧ q' = q := by
    intro q q' a
    rw [operandShape_ok]
    simp [Expr.unary, hs, eq_comm]
  constructor
  · intro h
    unfold nodeShape at h
    cases op <;> cases hop <;> simp only [Expr.unary, Expr.op_node] at h hoperand
    case mp.transpose.refl =>
      rw [map_eq_pure_bind] at h
      obtain ⟨a, p₁, ha, hr⟩ := bind_ok.1 h
      obtain ⟨rfl, rfl⟩ := hoperand.1 ha
      cases pure_ok.1 hr
      exact ⟨.transpose, rfl⟩
    case mp.shape.refl =>
      obtain ⟨a, p₁, ha, hr⟩ := bind_ok.1 h
      obtain ⟨rfl, rfl⟩ := hoperand.1 ha
      cases pure_ok.1 hr
      exact ⟨.shape, rfl⟩
    case mp.dim.refl =>
      cases pure_ok.1 h
      exact ⟨.dim, rfl⟩
    case mp.reduce.refl =>
      rw [map_eq_pure_bind] at h
      obtain ⟨a, p₁, ha, hr⟩ := bind_ok.1 h
      obtain ⟨rfl, rfl⟩ := hoperand.1 ha
      cases pure_ok.1 hr
      cases a with
      | nil => simp [reducedScalar?, Expr.unary, hs] at hne
      | cons n a => exact ⟨.reduce, rfl⟩
    all_goals exact (throw_ok.1 h).elim
  · rintro ⟨hlaw, rfl⟩
    cases hlaw with
    | transpose | reduce =>
      refine (congrArg (StateT.run · p') (map_eq_pure_bind _ _)).trans ?_
      exact bind_ok.2 ⟨_, _, hoperand.2 ⟨rfl, rfl⟩, pure_ok.2 rfl⟩
    | shape => exact bind_ok.2 ⟨_, _, hoperand.2 ⟨rfl, rfl⟩, pure_ok.2 rfl⟩
    | dim => exact pure_ok.2 rfl

section Binary
variable {op : Operator} {l r : Expr} {a b s : Shape}

theorem left_ok (ha : l.shape = some a) {a' : Shape} :
    (operandShape (.binary op none l r) 0).run p = .ok (a', p') ↔ a' = a ∧ p' = p := by
  rw [operandShape_ok]
  simp [Expr.binary, ha, eq_comm]

theorem right_ok (hb : r.shape = some b) {b' : Shape} :
    (operandShape (.binary op none l r) 1).run p = .ok (b', p') ↔ b' = b ∧ p' = p := by
  rw [operandShape_ok]
  simp [Expr.binary, hb, eq_comm]

theorem leftValue_ok (hn : ∀ name, l.arrayName? = some name → (p.table.get? name).isSome)
    {v : Option Shape} : (operandValue (.binary op none l r) 0).run p = .ok (v, p') ↔
      v = p.table.valueOf l ∧ p' = p := by
  rw [operandValue_ok]
  simp only [Expr.binary, Expr.children_node, List.getElem?_cons_zero, Option.some.injEq]
  constructor
  · rintro ⟨⟨_, rfl, hv, -⟩, hp⟩
    exact ⟨hv, hp⟩
  · rintro ⟨hv, hp⟩
    exact ⟨⟨l, rfl, hv, hn⟩, hp⟩

theorem equalShape_ok (ha : l.shape = some a) (hb : r.shape = some b) :
    (equalShape (.binary op none l r)).run p = .ok (s, p') ↔
      (matchShapes op a b).run p = .ok (s, p') := by
  unfold equalShape
  simp only [bind_ok, left_ok ha, right_ok hb]
  constructor
  · rintro ⟨_, _, ⟨rfl, rfl⟩, _, _, ⟨rfl, rfl⟩, h⟩
    exact h
  · intro h
    exact ⟨_, _, ⟨rfl, rfl⟩, _, _, ⟨rfl, rfl⟩, h⟩

theorem extendedShape_ok (ha : l.shape = some a) (hb : r.shape = some b) :
    (extendedShape (.binary op none l r)).run p = .ok (s, p') ↔
      (a = [] ∧ s = b ∧ p' = p) ∨ (a ≠ [] ∧ b = [] ∧ s = a ∧ p' = p) ∨
        (a ≠ [] ∧ b ≠ [] ∧ (matchShapes op a b).run p = .ok (s, p')) := by
  have hrun : (extendedShape (.binary op none l r)).run p = .ok (s, p') ↔
      (if a.isEmpty then pure b else if b.isEmpty then pure a else matchShapes op a b : Infer Shape).run p
        = .ok (s, p') := by
    unfold extendedShape
    simp only [bind_ok, left_ok ha, right_ok hb]
    constructor
    · rintro ⟨_, _, ⟨rfl, rfl⟩, _, _, ⟨rfl, rfl⟩, h⟩
      exact h
    · intro h
      exact ⟨_, _, ⟨rfl, rfl⟩, _, _, ⟨rfl, rfl⟩, h⟩
  rw [hrun]
  cases a with
  | nil =>
    rw [List.isEmpty_nil, if_pos rfl, pure_ok]
    simp [eq_comm]
  | cons x a =>
    cases b with
    | nil =>
      rw [List.isEmpty_cons, if_neg Bool.false_ne_true, List.isEmpty_nil, if_pos rfl, pure_ok]
      simp [eq_comm]
    | cons y b =>
      rw [List.isEmpty_cons, if_neg Bool.false_ne_true, List.isEmpty_cons,
        if_neg Bool.false_ne_true]
      simp

theorem outerShape_ok (ha : l.shape = some a) (hb : r.shape = some b) :
    (outerShape (.binary op none l r)).run p = .ok (s, p') ↔ s = a ++ b ∧ p' = p := by
  unfold outerShape
  simp only [bind_ok, left_ok ha, right_ok hb, pure_ok, Prod.mk.injEq]
  constructor
  · rintro ⟨_, _, ⟨rfl, rfl⟩, _, _, ⟨rfl, rfl⟩, rfl, rfl⟩
    exact ⟨rfl, rfl⟩
  · rintro ⟨rfl, rfl⟩
    exact ⟨_, _, ⟨rfl, rfl⟩, _, _, ⟨rfl, rfl⟩, rfl, rfl⟩

theorem innerShape_ok (ha : l.shape = some a) (hb : r.shape = some b) :
    (innerShape (.binary op none l r)).run p = .ok (s, p') ↔
      ∃ a' m n b', a = a' ++ [m] ∧ b = n :: b' ∧ (matchInner m n).run p = .ok ((), p') ∧
        s = a' ++ b' := by
  unfold innerShape
  simp only [bind_ok, left_ok ha, right_ok hb]
  constructor
  · rintro ⟨_, _, ⟨rfl, rfl⟩, _, _, ⟨rfl, rfl⟩, h⟩
    split at h
    · next m n b' hm =>
      obtain ⟨a', rfl⟩ := List.getLast?_eq_some_iff.1 hm
      obtain ⟨_, p₁, hmatch, h⟩ := bind_ok.1 h
      cases pure_ok.1 h
      exact ⟨a', m, n, b', rfl, rfl, hmatch, by simp⟩
    · exact (fault_ok.1 h).elim
  · rintro ⟨a', m, n, b', rfl, rfl, hmatch, rfl⟩
    refine ⟨_, _, ⟨rfl, rfl⟩, _, _, ⟨rfl, rfl⟩, ?_⟩
    simp only [List.getLast?_concat, List.dropLast_concat]
    exact bind_ok.2 ⟨(), p', hmatch, pure_ok.2 rfl⟩

theorem selectedShape_ok (ha : l.shape = some a) (hb : r.shape = some b)
    (hn : ∀ name, l.arrayName? = some name → (p.table.get? name).isSome) :
    (selectedShape (.binary op none l r)).run p = .ok (s, p') ↔
      ∃ n, a = [.int n] ∧ Shape.indexRank n ≤ b.length ∧ s = b.drop (Shape.indexRank n) ∧
        (checkBounds 0 ((p.table.valueOf l).getD []) b).run p = .ok ((), p') := by
  have hnone : ∀ {q q' : Pending}, (checkBounds 0 [] b).run q = .ok ((), q') ↔ q' = q := by
    intro q q'
    rw [checkBounds.eq_def]
    exact pure_ok.trans (by simp [eq_comm])
  unfold selectedShape
  simp only [bind_ok, left_ok ha, right_ok hb, indexLength_ok]
  constructor
  · rintro ⟨_, _, ⟨rfl, rfl⟩, _, _, ⟨rfl, rfl⟩, _, _, ⟨⟨n, rfl, rfl⟩, rfl⟩, h⟩
    split at h
    · exact (fault_ok.1 h).elim
    · next hlen =>
      obtain ⟨v, p₁, hv, h⟩ := bind_ok.1 h
      obtain ⟨rfl, rfl⟩ := (leftValue_ok hn).1 hv
      refine ⟨n, rfl, Nat.le_of_not_lt hlen, ?_⟩
      cases hval : p₁.table.valueOf l with
      | none =>
        rw [hval] at h
        cases pure_ok.1 h
        exact ⟨rfl, hnone.2 rfl⟩
      | some w =>
        rw [hval] at h
        obtain ⟨_, p₂, hbounds, h⟩ := bind_ok.1 h
        cases pure_ok.1 h
        exact ⟨rfl, hbounds⟩
  · rintro ⟨n, rfl, hlen, rfl, hbounds⟩
    refine ⟨_, _, ⟨rfl, rfl⟩, _, _, ⟨rfl, rfl⟩, _, _, ⟨⟨n, rfl, rfl⟩, rfl⟩, ?_⟩
    rw [if_neg (Nat.not_lt.2 hlen)]
    refine bind_ok.2 ⟨_, _, (leftValue_ok hn).2 ⟨rfl, rfl⟩, ?_⟩
    cases hval : p.table.valueOf l with
    | none =>
      rw [hval] at hbounds
      obtain rfl := hnone.1 hbounds
      exact pure_ok.2 rfl
    | some w =>
      rw [hval] at hbounds
      exact bind_ok.2 ⟨(), p', hbounds, pure_ok.2 rfl⟩

end Binary

end Infer

end PsiCalculus
