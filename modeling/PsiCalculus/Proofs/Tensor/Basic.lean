import PsiCalculus.Proofs.Tensor.Axes

/-!
# Tensors

A tensor has a shape, the lengths of its axes, and at each multi-index in the range of the shape a
cell, which may be undefined; outside there is nothing (`Tensor.inRange`). The operations are those of
the calculus on whole arrays: reversed and permuted axes, selection, pointwise operation with scalar
extension, outer and inner product, reduction.

A fold over an axis is the left fold of the cells along it, undefined if the axis is empty
(`leftFold`).
-/

namespace PsiCalculus

/-- The multiples of `step` from `start` on, before `stop`. -/
def steps (start stop step : Int) : List Int :=
  let count := if 0 < step then (stop - start + step - 1) / step
    else if step < 0 then (start - stop - step - 1) / -step else 0
  (List.range count.toNat).map fun k : Nat => start + k * step

theorem steps_unit (n : Int) : steps 0 n 1 = (List.range n.toNat).map Int.ofNat := by
  have hcount : (n - 0 + 1 - 1) / 1 = n := by omega
  simp [steps]

theorem mem_steps_unit {n k : Int} : k ∈ steps 0 n 1 ↔ 0 ≤ k ∧ k < n := by
  rw [steps_unit, List.mem_map]
  simp only [List.mem_range]
  constructor
  · rintro ⟨j, hj, rfl⟩
    rw [Int.ofNat_eq_natCast]
    omega
  · intro h
    refine ⟨k.toNat, by omega, ?_⟩
    rw [Int.ofNat_eq_natCast]
    omega

/-- The values joined from the left; there is no value to start from in an empty list. -/
def leftFold {V : Type} (f : V → V → V) : List V → Option V
  | [] => none
  | v :: vs => some (vs.foldl f v)

/-- The left fold of what `g` gives at the multiples, undefined if it is undefined at one of them. -/
def foldOver {V : Type} (f : V → V → V) (ks : List Int) (g : Int → Option V) : Option V := do
  leftFold f (← ks.mapM g)

theorem mapM_congr {α β : Type} {f g : α → Option β} : ∀ {as : List α}, (∀ a ∈ as, f a = g a) →
    as.mapM f = as.mapM g
  | [], _ => rfl
  | a :: as, h => by
    rw [List.mapM_cons, List.mapM_cons, h a (.head _), mapM_congr fun b hb => h b (.tail _ hb)]

theorem foldOver_congr {V : Type} {f : V → V → V} {ks : List Int} {g h : Int → Option V}
    (hgh : ∀ k ∈ ks, g k = h k) : foldOver f ks g = foldOver f ks h := by
  unfold foldOver
  rw [mapM_congr hgh]

/-- A fold has a value only if it starts somewhere. -/
theorem exists_of_foldOver {V : Type} {f : V → V → V} {ks : List Int} {g : Int → Option V} {v : V}
    (h : foldOver f ks g = some v) : ∃ k w, g k = some w := by
  obtain ⟨ws, hws, hv⟩ := Option.bind_eq_some_iff.1 h
  cases ks with
  | nil =>
    cases hws
    cases hv
  | cons k ks =>
    rw [List.mapM_cons] at hws
    obtain ⟨w, hw, -⟩ := Option.bind_eq_some_iff.1 hws
    exact ⟨k, w, hw⟩

/-- An array of possibly undefined cells. -/
structure Tensor (V : Type) where
  /-- The lengths of the axes. -/
  shape : List Int
  /-- The cell at a multi-index. -/
  cell : List Int → Option V
  inRange : ∀ {x v}, cell x = some v → InRange x shape

namespace Tensor

variable {V : Type}

/-- The number of axes. -/
def rank (T : Tensor V) : Nat := T.shape.length

/-- The array of a shape whose cells `f` gives. -/
def ofFn (shape : List Int) (f : List Int → V) : Tensor V where
  shape := shape
  cell x := if InRange x shape then some (f x) else none
  inRange h := by
    split at h
    · assumption
    · cases h

/-- The array without axes that holds `v`. -/
def scalar (v : V) : Tensor V where
  shape := []
  cell
    | [] => some v
    | _ => none
  inRange := by
    rintro (_ | ⟨i, x⟩) v' h
    · exact .nil
    · cases h

/-- The array of one axis that holds the values. -/
def vector (vs : List V) : Tensor V where
  shape := [(vs.length : Int)]
  cell
    | [i] => Shape.at? vs i
    | _ => none
  inRange := by
    rintro (_ | ⟨i, _ | ⟨j, x⟩⟩) v h
    · cases h
    · simp only [Shape.at?] at h
      split at h
      · cases h
      · have := (List.getElem?_eq_some_iff.1 h).1
        exact .cons (by omega) .nil
    · cases h

/-- The axes in reverse order. -/
def transpose (T : Tensor V) : Tensor V where
  shape := T.shape.reverse
  cell x := T.cell x.reverse
  inRange h := by
    have := List.forall₂_reverse_iff.2 (T.inRange h)
    rwa [List.reverse_reverse] at this

/-- What is left of the array below the leading index. -/
def select (index : List Int) (T : Tensor V) : Tensor V where
  shape := T.shape.drop index.length
  cell x := T.cell (index ++ x)
  inRange h := by
    have := List.forall₂_drop index.length (T.inRange h)
    rwa [List.drop_left] at this

/-- Axis `j` as axis `p[j]`, if `p` names every axis once. -/
def permute (p : List Int) (T : Tensor V) : Option (Tensor V) :=
  if hp : p.Perm (places T.shape.length) then some {
    shape := permutedLengths p T.shape
    cell := fun x => if x.length = T.shape.length then (unpermute p x).bind T.cell else none
    inRange := by
      intro x v h
      split at h
      · next hx =>
        obtain ⟨y, hy, hcell⟩ := Option.bind_eq_some_iff.1 h
        exact unpermute_inRange hp hx hy (T.inRange hcell)
      · cases h }
  else none

/-- Two cells joined, undefined if one of them is. -/
def joinCells (f : V → V → V) (a b : Option V) : Option V := do return f (← a) (← b)

theorem joinCells_some {f : V → V → V} {a b : Option V} {v : V} (h : joinCells f a b = some v) :
    ∃ x y, a = some x ∧ b = some y := by
  obtain ⟨x, hx, h⟩ := Option.bind_eq_some_iff.1 h
  obtain ⟨y, hy, -⟩ := Option.bind_eq_some_iff.1 h
  exact ⟨x, y, hx, hy⟩

/-- Cells at the same place joined; a scalar extends to the shape of the other operand. -/
def pointwise (f : V → V → V) (A B : Tensor V) : Option (Tensor V) :=
  if A.shape = [] then some {
    shape := B.shape
    cell := fun x => joinCells f (A.cell []) (B.cell x)
    inRange := fun h => by
      obtain ⟨_, _, -, hb⟩ := joinCells_some h
      exact B.inRange hb }
  else if B.shape = [] then some {
    shape := A.shape
    cell := fun x => joinCells f (A.cell x) (B.cell [])
    inRange := fun h => by
      obtain ⟨_, _, ha, -⟩ := joinCells_some h
      exact A.inRange ha }
  else if A.shape = B.shape then some {
    shape := A.shape
    cell := fun x => joinCells f (A.cell x) (B.cell x)
    inRange := fun h => by
      obtain ⟨_, _, ha, -⟩ := joinCells_some h
      exact A.inRange ha }
  else none

/-- Each cell of the one joined with each cell of the other. -/
def outer (f : V → V → V) (A B : Tensor V) : Tensor V where
  shape := A.shape ++ B.shape
  cell x := joinCells f (A.cell (x.take A.shape.length)) (B.cell (x.drop A.shape.length))
  inRange {x v} h := by
    obtain ⟨_, _, ha, hb⟩ := joinCells_some h
    have := (A.inRange ha).append (B.inRange hb)
    rwa [List.take_append_drop] at this

/-- The fold over the last axis of `A` and the first axis of `B`, which have to agree, of the cells
joined. -/
def inner (fold join : V → V → V) (A B : Tensor V) : Option (Tensor V) :=
  match A.shape.getLast?, hs : B.shape with
  | some m, n :: s => if m = n then some {
      shape := A.shape.dropLast ++ s
      cell := fun x => foldOver fold (steps 0 m 1) fun k =>
        joinCells join (A.cell (x.take (A.shape.length - 1) ++ [k]))
          (B.cell (k :: x.drop (A.shape.length - 1)))
      inRange := fun {x v} h => by
        obtain ⟨k, w, hw⟩ := exists_of_foldOver h
        obtain ⟨_, _, ha, hb⟩ := joinCells_some hw
        have hleft := (A.inRange ha).dropLast
        have hright := B.inRange hb
        rw [hs] at hright
        cases hright with
        | cons _ hright =>
          have := hleft.append hright
          rwa [List.take_append_drop] at this }
    else none
  | _, _ => none

/-- The fold over the leading axis; a scalar has none. -/
def reduce (f : V → V → V) (T : Tensor V) : Option (Tensor V) :=
  match hs : T.shape with
  | [] => none
  | n :: s => some {
      shape := s
      cell := fun x => foldOver f (steps 0 n 1) fun k => T.cell (k :: x)
      inRange := fun h => by
        obtain ⟨k, w, hw⟩ := exists_of_foldOver h
        have := T.inRange hw
        rw [hs] at this
        cases this with
        | cons _ hx => exact hx }

/-! ## What the partial operations answer -/

variable {f fold join : V → V → V} {A B T U : Tensor V}

theorem permute_eq {p : List Int} (h : T.permute p = some U) :
    p.Perm (places T.shape.length) ∧ U.shape = permutedLengths p T.shape ∧
      ∀ x, x.length = T.shape.length → U.cell x = (unpermute p x).bind T.cell := by
  unfold permute at h
  split at h
  · next hp =>
    cases h
    exact ⟨hp, rfl, fun x hx => if_pos hx⟩
  · cases h

theorem exists_permute {p : List Int} (hp : p.Perm (places T.shape.length)) :
    ∃ U, T.permute p = some U := by
  simp only [permute, dif_pos hp]
  exact ⟨_, rfl⟩

theorem pointwise_eq (h : pointwise f A B = some T) :
    (A.shape = [] ∧ T.shape = B.shape ∧ ∀ x, T.cell x = joinCells f (A.cell []) (B.cell x)) ∨
    (A.shape ≠ [] ∧ B.shape = [] ∧ T.shape = A.shape ∧
      ∀ x, T.cell x = joinCells f (A.cell x) (B.cell [])) ∨
    (A.shape ≠ [] ∧ B.shape ≠ [] ∧ A.shape = B.shape ∧ T.shape = A.shape ∧
      ∀ x, T.cell x = joinCells f (A.cell x) (B.cell x)) := by
  unfold pointwise at h
  split at h
  · next ha =>
    cases h
    exact .inl ⟨ha, rfl, fun _ => rfl⟩
  · next ha =>
    split at h
    · next hb =>
      cases h
      exact .inr (.inl ⟨ha, hb, rfl, fun _ => rfl⟩)
    · next hb =>
      split at h
      · next hab =>
        cases h
        exact .inr (.inr ⟨ha, hb, hab, rfl, fun _ => rfl⟩)
      · cases h

theorem pointwise_shape (h : pointwise f A B = some T) :
    T.shape = if A.shape = [] then B.shape else A.shape := by
  rcases pointwise_eq h with ⟨ha, hT, -⟩ | ⟨ha, -, hT, -⟩ | ⟨ha, -, -, hT, -⟩
  · rw [if_pos ha, hT]
  · rw [if_neg ha, hT]
  · rw [if_neg ha, hT]

/-- Where an operand of a pointwise operation is read: a scalar at the empty index. -/
def reach (T : Tensor V) (x : List Int) : List Int := if T.shape = [] then [] else x

theorem pointwise_cell (h : pointwise f A B = some T) {x : List Int}
    (hx : x.length = T.shape.length) :
    T.cell x = joinCells f (A.cell (A.reach x)) (B.cell (B.reach x)) := by
  rcases pointwise_eq h with ⟨ha, hT, hc⟩ | ⟨ha, hb, -, hc⟩ | ⟨ha, hb, -, -, hc⟩
  · rw [hc, reach, if_pos ha, reach]
    split
    · next hb =>
      rw [hT, hb] at hx
      rw [List.length_eq_zero_iff.1 hx]
    · rfl
  · rw [hc, reach, if_neg ha, reach, if_pos hb]
  · rw [hc, reach, if_neg ha, reach, if_neg hb]

theorem pointwise_rank (h : pointwise f A B = some T) :
    (A.shape ≠ [] → T.shape.length = A.shape.length) ∧
      (B.shape ≠ [] → T.shape.length = B.shape.length) := by
  rcases pointwise_eq h with ⟨ha, hT, -⟩ | ⟨ha, hb, hT, -⟩ | ⟨ha, hb, hab, hT, -⟩
  · exact ⟨fun h => absurd ha h, fun _ => by rw [hT]⟩
  · exact ⟨fun _ => by rw [hT], fun h => absurd hb h⟩
  · exact ⟨fun _ => by rw [hT], fun _ => by rw [hT, hab]⟩

theorem exists_pointwise (f : V → V → V) (h : A.shape = [] ∨ B.shape = [] ∨ A.shape = B.shape) :
    ∃ T, pointwise f A B = some T := by
  unfold pointwise
  split
  · exact ⟨_, rfl⟩
  · next ha =>
    split
    · exact ⟨_, rfl⟩
    · next hb =>
      rw [if_pos (by simpa [ha, hb] using h)]
      exact ⟨_, rfl⟩

theorem inner_eq (h : inner fold join A B = some T) : ∃ a m s, A.shape = a ++ [m] ∧
    B.shape = m :: s ∧ T.shape = a ++ s ∧
    ∀ x, T.cell x = foldOver fold (steps 0 m 1) fun k =>
      joinCells join (A.cell (x.take a.length ++ [k])) (B.cell (k :: x.drop a.length)) := by
  unfold inner at h
  split at h
  · next m n s hlast hs =>
    split at h
    · next hmn =>
      subst hmn
      cases h
      obtain ⟨a, ha⟩ := List.getLast?_eq_some_iff.1 hlast
      have hdrop : A.shape.dropLast = a := by rw [ha, List.dropLast_concat]
      refine ⟨a, m, s, ha, hs, congrArg (· ++ s) hdrop, fun x => ?_⟩
      simp only [ha, List.length_append, List.length_singleton, Nat.add_sub_cancel]
    · cases h
  · cases h

theorem exists_inner (fold join : V → V → V) {a s : List Int} {m : Int}
    (ha : A.shape = a ++ [m]) (hb : B.shape = m :: s) :
    ∃ T, inner fold join A B = some T := by
  have hlast : A.shape.getLast? = some m := by rw [ha, List.getLast?_concat]
  unfold inner
  split
  · next m' n' s' hlast' hs' =>
    rw [hlast] at hlast'
    rw [hb] at hs'
    cases hlast'
    cases hs'
    rw [if_pos rfl]
    exact ⟨_, rfl⟩
  · next hne => exact (hne m m s hlast hb).elim

theorem reduce_eq (h : reduce f T = some U) : ∃ n s, T.shape = n :: s ∧ U.shape = s ∧
    ∀ x, U.cell x = foldOver f (steps 0 n 1) fun k => T.cell (k :: x) := by
  unfold reduce at h
  split at h
  · cases h
  · next n s hs =>
    cases h
    exact ⟨n, s, hs, rfl, fun _ => rfl⟩

theorem exists_reduce (f : V → V → V) {n : Int} {s : List Int} (hs : T.shape = n :: s) :
    ∃ U, reduce f T = some U := by
  unfold reduce
  split
  · next hnil =>
    rw [hnil] at hs
    cases hs
  · exact ⟨_, rfl⟩

end Tensor

end PsiCalculus
