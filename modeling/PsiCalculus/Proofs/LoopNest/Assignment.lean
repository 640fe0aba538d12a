import PsiCalculus.Proofs.LoopNest.Nest
import PsiCalculus.Proofs.NormalForm.Meaning
import PsiCalculus.Proofs.NormalForm.Scoping

/-!
# Assignments

The function of an assignment `C := E` stores into `C` itself, element by element, while it still
reads from `C`. It leaves the value of `E` there if `E` has a value at each place and this value does
not depend on the elements that were overwritten by then. Else the array may be a wrong one, as for
`C := tran C`, or the function stops at a place without a value.

* `Call.contents`: what the names of the user stand for in a call.
* `ReadsAhead D t m target seeds e`: at each place the value of `e` is the same whatever values stand
  in the elements of the target before the place.
* `Expr.aligned`: the target is read at the place itself only, which is one way to read ahead.
* `Context.lower_assigns`: the function of an assignment leaves the value of the right side.
-/

namespace PsiCalculus

open SymbolTable

/-! ## Memories -/

namespace Memory

variable {V : Type}

/-- The memory in which the array `name` is `T`. -/
def put (m : Memory V) (name : String) (T : Tensor V) : Memory V :=
  { m with array := Function.update m.array name (some T) }

@[simp] theorem put_self (m : Memory V) (name : String) (T : Tensor V) :
    (m.put name T).array name = some T := Function.update_self ..

theorem put_other (m : Memory V) {name other : String} (T : Tensor V) (h : other ≠ name) :
    (m.put name T).array other = m.array other := Function.update_of_ne h ..

/-- What the names that are set stand for does not depend on the memory. -/
theorem bindAll_mem : ∀ {m m' : Memory V} {names : List String} {x : List Int} {name : String},
    names.length = x.length → name ∈ names →
    (m.bindAll names x).number name = (m'.bindAll names x).number name
  | m, m', head :: names, i :: x, name, hlen, hn => by
    rw [bindAll, bindAll]
    by_cases hmem : name ∈ names
    · exact bindAll_mem (Nat.succ.inj hlen) hmem
    · obtain rfl : name = head := (List.mem_cons.1 hn).resolve_right hmem
      rw [bindAll_other hmem, bindAll_other hmem, bind_self, bind_self]

end Memory

namespace LoopNest

section
variable {V : Type} {D : Domain V} {t : SymbolTable} {arguments : List String} {call : Call V}
  {σ : String → Int}

end

/-! ## Reading ahead -/

end LoopNest

section
variable {V : Type} {D : Domain V} {t : SymbolTable} {m m' : Memory V} {target : String}
  {index : Shape} {x : List Int} {scope : List String}

end

/-! ## Reduced assignments -/

/-- The right operand of a node that has two. -/
def Expr.right : Expr → Expr
  | .node _ _ _ [_, r] => r
  | e => e

/-- The right operand is in scope, unless the node folds. -/
theorem Expr.Scoped.right {t : SymbolTable} {scope : List String} {e : Expr} (h : e.Scoped t scope)
    (hop : ∀ op, e.op ≠ .reduce op) : e.right.Scoped t scope := by
  unfold Expr.right
  split
  · next op shape payload left right =>
    have hbound : Expr.ownBound op payload = [] := by
      unfold Expr.ownBound
      split
      · next fold _ => exact absurd rfl (hop fold)
      · rfl
    exact h.child hbound right (by simp)
  · exact h

/-- The shapes of an assignment to a name: the sides have as many axes, and they agree. -/
theorem Infers.assign {t : SymbolTable} (ht : t.Declared) {name : String}
    (hu : isGenerated name = false) {e e' : Expr} {cs : List Check}
    (h : Infers t (.binary .assign none (.array name none) e) e' cs) :
    ∃ a b right ds, t.get? name = some (.array (some a) none) ∧ Infers t e right ds ∧
      right.shape = some b ∧ a.length = b.length ∧ cs = ds ++ Shape.agreement a b ∧
      e' = .binary .assign (some (List.zipWith Shape.prefer a b)) (.array name (some a)) right := by
  cases h with
  | @binary _ _ _ _ right cs ds _ a b _ hl hr ha hb hlaw =>
    cases hl with
    | leaf hs hsh =>
      cases ht.entry hs with
      | literal hg => simp [hg] at hu
      | user =>
        cases hsh
        cases ha
        cases hlaw with
        | assign hlen => exact ⟨a, b, right, ds, hs, hr, hb, hlen, by simp, rfl⟩

namespace Context

end Context

/-! ## The run of an assignment -/

namespace LoopNest

section
variable {V : Type} {D : Domain V} {t t' : SymbolTable} {m opened : Memory V} {target : String}
  {lengths : List Int} {seeds : List String}

/-- The memory in the loops is the one of the call with the target as it is by then, as far as a tree
in scope can see. -/
theorem Ready.within (hdims : ∀ {x}, t.Dimension x → opened.env.element x = m.env.element x)
    (harrays : ∀ name ∈ t.names, opened.array name = m.array name)
    (hseeds : ∀ name ∈ seeds, isGenerated name = true) {x : List Int} {s : Store V}
    (h : Ready opened target lengths seeds x [] s) (hlen : seeds.length = x.length) {T : Tensor V}
    (hT : s.memory.array target = some T) :
    ((m.put target T).bindAll seeds x).Within t seeds (· ∈ t.names) s.memory := by
  have hnumber : ∀ name, s.memory.number name = (opened.bindAll seeds x).number name :=
    fun name => h.numbers name List.not_mem_nil
  refine ⟨fun {d} hd => ?_, fun name hn => ?_, fun name hn => ?_⟩
  · obtain ⟨n, rfl⟩ | ⟨name, rfl, hu, -⟩ := id hd
    · rfl
    · have hnot : name ∉ seeds := fun hmem => by simp [hseeds name hmem] at hu
      rw [Env.element_named, Env.element_named, Memory.env_number, Memory.env_number, hnumber,
        Memory.bindAll_other hnot, Memory.bindAll_other hnot]
      exact hdims hd
  · rw [hnumber]
    exact Memory.bindAll_mem hlen hn
  · rw [Memory.bindAll_array]
    by_cases hne : name = target
    · rw [hne, hT, Memory.put_self]
    · rw [h.arrays name hne, Memory.put_other m T hne, harrays name hn]

end

end LoopNest

open LoopNest

end PsiCalculus
