import PsiCalculus.Proofs.Progress.Lowering
import PsiCalculus.Proofs.Python.Names

/-!
# Functions that are printed

A tree is written if its operators have a text, its index vectors have known values and its bound
indices have ranges. This holds of what reduction leaves of a program, so that the assignment inside the
loops is written, and the whole function is with it.

* `Descent.writes`: indices that have come down are written.
* `LoopNest.Lowers.program_run`: the function of a reduced program is printed.
-/

namespace PsiCalculus

open SymbolTable Python

section
variable {p : Python} {t : SymbolTable}

theorem Simple.writes {e : Expr} (h : Simple e) : ∃ term, Writes p e term := by
  cases h with
  | leaf => exact ⟨_, .array⟩
  | query hop =>
    rcases hop with rfl | rfl
    · exact ⟨_, .shape .array⟩
    · exact ⟨_, .dim .array⟩

/-- **Indices that have come down are written.** -/
theorem Descent.writes {e : Expr} (hx : Extends t p.table) (h : Descent t Operator.Stuck e) :
    ∃ term, Writes p e term := by
  induction h with
  | simple he => exact he.writes
  | psi hv hX hstuck =>
    obtain ⟨term, hterm⟩ := (hX.simple hstuck).writes (p := p)
    exact ⟨_, .psi rfl (hx.get? hv) rfl hterm⟩
  | arith _ _ ihl ihr =>
    obtain ⟨left, hleft⟩ := ihl
    obtain ⟨right, hright⟩ := ihr
    exact ⟨_, .between rfl hleft hright⟩
  | fold hk _ ih =>
    obtain ⟨term, hterm⟩ := ih
    exact ⟨_, .fold (hx.get? hk) rfl hterm⟩

end

namespace LoopNest

variable {guards : Bool} {parts : Parts}

/-- The assignment inside the loops is written. -/
theorem Lowers.body_writes {c f : Context} {literals : Bool} (h : Lowers guards c parts f)
    (hx : Extends c.table f.table) (hsettled : Settled c.table c.consequent) :
    ∃ target value, Emits ⟨f.table, literals⟩ parts.body (.assign target value) := by
  cases h.target with
  | own hop _ _ hbody =>
    obtain ⟨s, a, b, v, name, index, value, hassign, hv, hvalue⟩ := hsettled.of_assign hop
    obtain ⟨term, hterm⟩ := hvalue.writes (p := ⟨f.table, literals⟩) hx
    rw [hbody, hassign]
    exact ⟨_, _, .assign (.psi rfl (hx.get? hv) rfl .array) hterm⟩
  | fresh hop hstore =>
    obtain ⟨v, a, t₁, -, hvector, hbody⟩ := (store_ok hstore).exists_vector
    have hv : f.table.get? v = some (.literal (parts.indices.map .named)) := by
      rw [(loops_ok h.nest).1]
      exact hvector.get?_self
    obtain ⟨term, hterm⟩ := (hsettled.of_value hop).writes (p := ⟨f.table, literals⟩) hx
    rw [hbody]
    exact ⟨_, _, .assign (.psi rfl hv rfl .array) hterm⟩

/-- **The function of a reduced program is printed.** -/
theorem Lowers.program_run {s r f : Context} {shape : Shape} (h : Lowers guards r parts f)
    (hred : s.Reduced r shape) (hsettled : Settled r.table r.consequent) (name : String)
    (literals : Bool) : ∃ text, Python.program name literals f = .ok text := by
  obtain ⟨target, value, hbody⟩ := h.body_writes (h.extends_reduced hred) hsettled
  obtain ⟨fn, hrenders, -⟩ := h.emits hred hbody
  exact ⟨_, hrenders.program_eq name⟩

end LoopNest

end PsiCalculus
