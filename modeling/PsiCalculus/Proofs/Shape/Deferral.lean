import PsiCalculus.Proofs.Shape.Node
import PsiCalculus.Proofs.Capacity

/-!
# Checks that wait for run time

Shape inference decides a check between integers at once and defers the others. Whether a node has a
shape, which one, and what is deferred does not depend on what is in the table besides the
declarations: over another table the constants of the comparisons have other names, and there may be
no names left for them.

* `Splits waits cs ds`: of the checks `cs` those in `ds` wait for run time, and the others hold.
* `Verdict`: how a computation comes out. `Follows t n result R path x`: `x` comes out like that over
  the table `t`, which takes names for `n` constants.
* `Infer.Decides t n x P`: over all tables that extend `t` the computation `x` comes to the same
  verdict, a value and deferred checks in `P` or an error at the node itself, and enters at most `n`
  constants. There is a lemma for each computation of `Infer`, up to `nodeShape_leaf_decides`,
  `nodeShape_unary_decides` and `nodeShape_binary_decides`.
-/

namespace PsiCalculus

open SymbolTable

/-! ## Checks that wait -/

namespace Check

/-- Whether a side of the check is known only at run time. -/
def isOpen (c : Check) : Bool := c.left.isSymbolic || c.right.isSymbolic

/-- The constants that are entered for the check, one for each side that is an integer. -/
def constants (c : Check) : Nat := (!c.left.isSymbolic).toNat + (!c.right.isSymbolic).toNat

/-- Whether the check, made by a node of the operator, waits for run time. An index and the folded axes
of an inner product wait if a side is symbolic; shapes that have to agree do not wait where both have
the same symbol. -/
def waits : Operator → Check → Bool
  | .psi, c | .inner _ _, c => c.isOpen
  | _, c => c.isOpen && decide (c.left ≠ c.right)

end Check

/-- The constants that are entered for several checks. -/
def constantsOf : List Check → Nat
  | [] => 0
  | c :: cs => c.constants + constantsOf cs

@[simp] theorem constantsOf_nil : constantsOf [] = 0 := rfl

@[simp] theorem constantsOf_append (cs ds : List Check) :
    constantsOf (cs ++ ds) = constantsOf cs + constantsOf ds := by
  induction cs with
  | nil => simp
  | cons c cs ih => rw [List.cons_append, constantsOf, constantsOf, ih, Nat.add_assoc]

/-- The checks of one list hold under the same valuations as those of the other. -/
def Equally (ds cs : List Check) : Prop :=
  ∀ σ, (∀ d ∈ ds, d.Holds (.ofValuation σ)) ↔ ∀ c ∈ cs, c.Holds (.ofValuation σ)

theorem Equally.refl (cs : List Check) : Equally cs cs := fun _ => Iff.rfl

theorem Equally.append {ds₁ ds₂ cs₁ cs₂ : List Check} (h₁ : Equally ds₁ cs₁)
    (h₂ : Equally ds₂ cs₂) : Equally (ds₁ ++ ds₂) (cs₁ ++ cs₂) := by
  intro σ
  rw [List.forall_mem_append, List.forall_mem_append, h₁ σ, h₂ σ]

/-- Of the checks `cs`, those in `ds` wait for run time, and the others hold. -/
structure Splits (waits : Check → Bool) (cs ds : List Check) : Prop where
  deferred : ds = cs.filter waits
  decided : ∀ c ∈ cs, waits c = false → ∀ σ, c.Holds (.ofValuation σ)

namespace Splits

variable {waits : Check → Bool} {c : Check} {cs ds cs' ds' : List Check}

theorem nil (waits : Check → Bool) : Splits waits [] [] := ⟨rfl, by simp⟩

theorem append (h : Splits waits cs ds) (h' : Splits waits cs' ds') :
    Splits waits (cs ++ cs') (ds ++ ds') := by
  refine ⟨by rw [List.filter_append, h.deferred, h'.deferred], ?_⟩
  exact List.forall_mem_append.2 ⟨h.decided, h'.decided⟩

theorem waiting (h : waits c = true) : Splits waits [c] [c] :=
  ⟨by simp [h], by simp [h]⟩

theorem holding (h : waits c = false) (hc : ∀ σ, c.Holds (.ofValuation σ)) : Splits waits [c] [] :=
  ⟨by simp [h], by simpa [h] using hc⟩

theorem subset (h : Splits waits cs ds) : ds ⊆ cs := by
  rw [h.deferred]
  exact List.filter_subset_self _

theorem equally (h : Splits waits cs ds) : Equally ds cs := by
  intro σ
  refine ⟨fun hds c hc => ?_, fun hcs d hd => hcs d (h.subset hd)⟩
  cases hw : waits c with
  | false => exact h.decided c hc hw σ
  | true => exact hds c (by rw [h.deferred]; exact List.mem_filter.2 ⟨hc, hw⟩)

end Splits

/-! ## Verdicts -/

/-- The error is about the node that is looked at. -/
inductive Error.AtRoot : Error → Prop
  | shape {f : ShapeFault} : AtRoot (.shape [] f)
  | pattern {f : PatternFault} : AtRoot (.pattern [] f)

/-- The outcome is the result or the error that is given, with `R` between the result and what stands
for it and the error located at `path`, if the table has names for `n` symbols; else there are no
names left. Of tables that are not counted it is not said which of the two holds. -/
inductive Follows {α β : Type} (t : SymbolTable) (n : Nat) (result : Except Error α)
    (R : α → β → Prop) (path : Path) : Except Error β → Prop
  | ok {a : α} {b : β} : (t.Counted → t.Takes n) → result = .ok a → R a b →
      Follows t n result R path (.ok b)
  | error {e : Error} : (t.Counted → t.Takes n) → result = .error e →
      Follows t n result R path (.error (e.located path))
  | exhausted {name : String} : (t.Counted → ¬ t.Takes n) →
      Follows t n result R path (.error (.exhausted name))

namespace Follows

variable {α β γ δ : Type} {t : SymbolTable} {m n : Nat} {path : Path} {R : α → β → Prop}
  {S : γ → δ → Prop} {x : Except Error β} {f : β → Except Error δ}

theorem imp {result : Except Error α} {R' : α → β → Prop} (h : Follows t n result R path x)
    (hR : ∀ a b, result = .ok a → R a b → R' a b) : Follows t n result R' path x := by
  cases h with
  | ok htakes hresult hab => exact .ok htakes hresult (hR _ _ hresult hab)
  | error htakes hresult => exact .error htakes hresult
  | exhausted hfull => exact .exhausted hfull

/-- A computation that fails does so whatever comes after it. -/
theorem bind_error {e : Error} (h : Follows t n (.error e) R path x) :
    Follows t n (.error e) S path (x >>= f) := by
  cases h with
  | ok _ hresult => cases hresult
  | error htakes hresult =>
    cases hresult
    exact .error htakes rfl
  | exhausted hfull => exact .exhausted hfull

/-- If the names of the table are numbered one after the other, the computation succeeds as long as
they suffice. -/
theorem attains {a : α} {bound : Nat} {P : β → Prop} (h : Follows t n (.ok a) R path x)
    (hc : t.Counted) (hbound : t.size + n ≤ bound) (hP : ∀ b, R a b → P b) : Attains bound P x := by
  cases h with
  | ok _ hresult hab =>
    cases hresult
    exact .ok (hP _ hab)
  | error _ hresult => cases hresult
  | exhausted hfull => exact .exhausted (Nat.lt_of_lt_of_le (Takes.lt_of_not (hfull hc)) hbound)

theorem exists_ok {a : α} (h : Follows t n (.ok a) R path x) (hc : t.Counted) (ht : t.Takes n) :
    ∃ b, x = .ok b ∧ R a b := by
  cases h with
  | ok _ hresult hab =>
    cases hresult
    exact ⟨_, rfl, hab⟩
  | error _ hresult => cases hresult
  | exhausted hfull => exact absurd ht (hfull hc)

theorem eq_error {e : Error} (h : Follows t n (.error e) R path x) (hc : t.Counted)
    (ht : t.Takes n) : x = .error (e.located path) := by
  cases h with
  | ok _ hresult => cases hresult
  | error _ hresult =>
    cases hresult
    rfl
  | exhausted hfull => exact absurd ht (hfull hc)

/-- A success has no place. -/
theorem anywhere {a : α} {path' : Path} (h : Follows t n (.ok a) R path x) :
    Follows t n (.ok a) R path' x := by
  cases h with
  | ok htakes hresult hab => exact .ok htakes hresult hab
  | error _ hresult => cases hresult
  | exhausted hfull => exact .exhausted hfull

/-- An error below `path` is one at `path` that lies further down. -/
theorem upward {e : Error} {rest : Path} (h : Follows t n (.error e) R (path ++ rest) x) :
    Follows t n (.error (e.located rest)) R path x := by
  cases h with
  | ok _ hresult => cases hresult
  | error htakes hresult =>
    cases hresult
    rw [← Error.located_located]
    exact .error htakes rfl
  | exhausted hfull => exact .exhausted hfull

/-- What comes after a computation is decided over the table that the computation leaves. -/
theorem bind {a : α} {result : Except Error γ} (h : Follows t m (.ok a) R path x)
    (hf : ∀ b, R a b → ∃ t₁ : SymbolTable, (t.Counted → t₁.Counted) ∧ t₁.size = t.size + m ∧
      Follows t₁ n result S path (f b)) : Follows t (m + n) result S path (x >>= f) := by
  cases h with
  | @ok _ b htakes hresult hab =>
    cases hresult
    obtain ⟨t₁, hcounted, hsize, hafter⟩ := hf b hab
    have htakes₁ : t.Counted → (t₁.Takes n ↔ t.Takes (m + n)) := fun hc => (htakes hc).after hsize
    have hrun : (Except.ok b >>= f) = f b := rfl
    rw [hrun]
    generalize f b = y at hafter
    cases hafter with
    | ok h hresult hcd => exact .ok (fun hc => (htakes₁ hc).1 (h (hcounted hc))) hresult hcd
    | error h hresult => exact .error (fun hc => (htakes₁ hc).1 (h (hcounted hc))) hresult
    | exhausted hfull => exact .exhausted fun hc h => hfull (hcounted hc) ((htakes₁ hc).2 h)
  | error _ hresult => cases hresult
  | exhausted hfull => exact .exhausted fun hc h => hfull hc (h.mono (Nat.le_add_right m n))

end Follows

/-- How a computation comes out: what it defers, and the result or the error that it ends with. -/
structure Verdict (α : Type) where
  deferred : List Check
  result : Except Error α

/-! ## Computations that defer checks -/

/-- Comparisons for the checks were added on the way from `p` to `p'`, with their constants. -/
structure Awaits (p p' : Pending) (ds : List Check) : Prop where
  grows : GrowsArrays p.table p'.table
  size : p'.table.size = p.table.size + constantsOf ds
  unchanged : ds = [] → p' = p
  conditions : ∃ cs, p'.conditions = p.conditions ++ cs ∧ List.Forall₂ (Defers p'.table) cs ds

namespace Awaits

variable {p p₁ p₂ : Pending} {ds es : List Check}

theorem refl (p : Pending) : Awaits p p [] := ⟨.refl _, rfl, fun _ => rfl, [], by simp, .nil⟩

theorem trans (h₁ : Awaits p p₁ ds) (h₂ : Awaits p₁ p₂ es) : Awaits p p₂ (ds ++ es) := by
  obtain ⟨cs₁, hcs₁, hds⟩ := h₁.conditions
  obtain ⟨cs₂, hcs₂, hes⟩ := h₂.conditions
  refine ⟨h₁.grows.trans h₂.grows, ?_, fun hnil => ?_, cs₁ ++ cs₂, ?_, ?_⟩
  · rw [h₂.size, h₁.size, constantsOf_append, Nat.add_assoc]
  · rw [List.append_eq_nil_iff] at hnil
    rw [h₂.unchanged hnil.2, h₁.unchanged hnil.1]
  · rw [hcs₂, hcs₁, List.append_assoc]
  · exact List.rel_append (hds.imp fun _ _ h => h.mono h₂.grows.grows.entries) hes

end Awaits

namespace Infer

variable {α β : Type} {t : SymbolTable} {P Q : α → List Check → Prop}

/-- The computation follows the verdict over every table that extends `t`. -/
def Runs (t : SymbolTable) (x : Infer α) (v : Verdict α) : Prop :=
  ∀ p : Pending, Extends t p.table →
    Follows p.table (constantsOf v.deferred) v.result
      (fun a r => r.1 = a ∧ Awaits p r.2 v.deferred) [] (x.run p)

/-- A computation that defers nothing. -/
theorem Runs.of_run {x : Infer α} {a : α} (hrun : ∀ p, Extends t p.table → x.run p = .ok (a, p)) :
    Runs t x ⟨[], .ok a⟩ := by
  intro p hp
  rw [hrun p hp]
  exact .ok (fun _ => .zero _) rfl ⟨rfl, .refl p⟩

/-- The computation comes to the verdict over every table that extends `t`, which is a value and
deferred checks in `P` or an error at the node. It enters no more than `n` constants. -/
structure ComesTo (t : SymbolTable) (n : Nat) (x : Infer α) (P : α → List Check → Prop)
    (v : Verdict α) : Prop where
  runs : Runs t x v
  ok : ∀ a, v.result = .ok a → P a v.deferred
  error : ∀ e, v.result = .error e → e.AtRoot
  constants_le : constantsOf v.deferred ≤ n

/-- The computation comes to one verdict over every table that extends `t`. -/
def Decides (t : SymbolTable) (n : Nat) (x : Infer α) (P : α → List Check → Prop) : Prop :=
  ∃ v, ComesTo t n x P v

namespace Decides

variable {m n : Nat}

theorem of_run {x : Infer α} {a : α} (hrun : ∀ p, Extends t p.table → x.run p = .ok (a, p))
    (h : P a []) : Decides t n x P := by
  refine ⟨⟨[], .ok a⟩, .of_run hrun, fun b hb => ?_, fun e he => (nomatch he), Nat.zero_le n⟩
  cases hb
  exact h

theorem pure {a : α} (h : P a []) : Decides t n (pure a) P := of_run (fun _ _ => rfl) h

theorem of_error {x : Infer α} {e : Error} (hrun : ∀ p, Extends t p.table → x.run p = .error e)
    (h : e.AtRoot) : Decides t n x P := by
  refine ⟨⟨[], .error e⟩, fun p hp => ?_, fun a ha => (nomatch ha), fun e' he' => ?_, Nat.zero_le n⟩
  · rw [hrun p hp, ← e.located_nil]
    exact .error (fun _ => .zero _) (by rw [e.located_nil])
  · cases he'
    exact h

theorem throw {e : Error} (h : e.AtRoot) : Decides t n (throw e) P := of_error (fun _ _ => rfl) h

theorem fault (f : ShapeFault) : Decides t n (fault f) P := throw .shape

theorem imp {x : Infer α} (h : Decides t n x P) (hPQ : ∀ a ds, P a ds → Q a ds) :
    Decides t n x Q := by
  obtain ⟨v, hruns, hok, herror, hle⟩ := h
  exact ⟨v, hruns, fun a ha => hPQ a _ (hok a ha), herror, hle⟩

theorem mono {x : Infer α} (h : Decides t m x P) (hle : m ≤ n) : Decides t n x P := by
  obtain ⟨v, hv⟩ := h
  exact ⟨v, { hv with constants_le := Nat.le_trans hv.constants_le hle }⟩

theorem bind {x : Infer α} {f : α → Infer β} {Q : β → List Check → Prop} (hx : Decides t m x P)
    (hf : ∀ a ds, P a ds → Decides t n (f a) fun b es => Q b (ds ++ es)) :
    Decides t (m + n) (x >>= f) Q := by
  obtain ⟨⟨ds, result⟩, hruns, hok, herror, hle⟩ := hx
  cases result with
  | error e =>
    refine ⟨⟨ds, .error e⟩, fun p hp => ?_, fun b hb => (nomatch hb), fun e' he' => ?_,
      Nat.le_add_right_of_le hle⟩
    · rw [StateT.run_bind]
      exact (hruns p hp).bind_error
    · cases he'
      exact herror e rfl
  | ok a =>
    obtain ⟨w, hw, hok', herror', hle'⟩ := hf a ds (hok a rfl)
    refine ⟨⟨ds ++ w.deferred, w.result⟩, fun p hp => ?_, hok', herror', ?_⟩
    · rw [StateT.run_bind, constantsOf_append]
      refine (hruns p hp).bind fun r hr => ⟨r.2.table, hr.2.grows.counted, hr.2.size, ?_⟩
      obtain ⟨rfl, hawaits⟩ := hr
      exact (hw r.2 (hp.trans hawaits.grows.grows.entries)).imp
        fun b r' _ hr' => ⟨hr'.1, hawaits.trans hr'.2⟩
    · rw [constantsOf_append]
      exact Nat.add_le_add hle hle'

theorem ite {c : Prop} [Decidable c] {x y : Infer α} (hx : c → Decides t n x P)
    (hy : ¬ c → Decides t n y P) : Decides t n (if c then x else y) P := by
  split
  · next h => exact hx h
  · next h => exact hy h

end Decides

/-! ## Comparisons -/

/-- An integer is entered as a constant; a symbol stands for itself. -/
theorem scalar_follows {p : Pending} {x : Element} (hx : p.table.Dimension x) :
    Follows p.table (!x.isSymbolic).toNat (.ok ()) (fun _ r => GrowsArrays p.table r.2.table ∧
      r.2.table.size = p.table.size + (!x.isSymbolic).toNat ∧ r.2.conditions = p.conditions ∧
      Stands r.2.table r.1 x) [] ((scalar x).run p) := by
  rcases hx with ⟨n, rfl⟩ | ⟨name, rfl, -, hget⟩
  · have hrun : (scalar (.int n)).run p =
        ((Grow.scalar (.int n)).run p.table >>= fun r => .ok (r, p)) >>= fun r =>
          .ok (r.1.1, { p with table := r.1.2 }) := rfl
    have hgrow : (Grow.scalar (.int n)).run p.table =
        (Grow.fresh (.array (some []) (some [.int n]))).run p.table >>= fun r =>
          .ok (.array r.1 (some []), r.2) := rfl
    rw [hrun, hgrow]
    rcases Grow.fresh_takes (t := p.table) (.array (some []) (some [.int n])) with
      ⟨htakes, name, t', hfresh, hsize⟩ | ⟨hfull, name, hfresh⟩
    · obtain ⟨hn, hadds⟩ := Grow.fresh_ok hfresh
      rw [hfresh]
      refine .ok htakes rfl ⟨?_, hsize, rfl, .constant hn hadds.get?_self⟩
      exact hadds.grows_arrays hn (fun _ => .constant hn) rfl fun hc => Grow.fresh_counted hc hfresh
    · rw [hfresh]
      exact .exhausted hfull
  · exact .ok (fun _ => .zero _) rfl ⟨.refl _, rfl, rfl, .symbolic hget⟩

theorem compare_runs {op : CompareOp} {x y : Element} (hx : t.Dimension x) (hy : t.Dimension y) :
    Runs t (compare op x y) ⟨[⟨op, x, y⟩], .ok ()⟩ := by
  intro p hp
  have hrun : (compare op x y).run p = (scalar x).run p >>= fun r => (scalar y).run r.2 >>= fun r' =>
      .ok ((), ⟨r'.2.table,
        r'.2.conditions ++ [.binary (.compare op) (some []) r.1 r'.1]⟩) := by
    rfl
  rw [hrun]
  refine (scalar_follows (hx.mono hp)).bind fun r hr => ⟨r.2.table, hr.1.counted, hr.2.1, ?_⟩
  obtain ⟨hg₁, hsize₁, hc₁, hl⟩ := hr
  have hy₁ := (hy.mono hp).mono hg₁.grows.entries
  refine (scalar_follows hy₁).bind (n := 0) fun r' hr' =>
    ⟨r'.2.table, hr'.1.counted, hr'.2.1, ?_⟩
  obtain ⟨hg₂, hsize₂, hc₂, hr⟩ := hr'
  refine .ok (fun _ => .zero _) rfl ⟨rfl, hg₁.trans hg₂, ?_, fun h => (nomatch h), _, by rw [hc₂, hc₁],
    .cons (.compare (hl.mono hg₂.grows.entries) hr) .nil⟩
  exact hsize₂.trans (by rw [hsize₁, Nat.add_assoc]; rfl)

theorem compare_decides {op : CompareOp} {x y : Element} (hx : t.Dimension x) (hy : t.Dimension y) :
    Decides t 2 (compare op x y) fun _ ds => ds = [⟨op, x, y⟩] := by
  refine ⟨_, compare_runs hx hy, fun _ _ => rfl, fun _ he => (nomatch he), ?_⟩
  cases x <;> cases y <;> simp [constantsOf, Check.constants, Element.isSymbolic]

theorem holds_int {op : CompareOp} {m n : Int} (h : op.holds m n = true) (σ : String → Int) :
    Check.Holds (.ofValuation σ) ⟨op, .int m, .int n⟩ := by
  simp [Check.Holds, Check.test, h]

/-! ## Shapes that have to agree -/

/-- The checks of shapes that have to agree wait where a side is symbolic and the sides differ. -/
abbrev disagrees : Check → Bool := Check.waits .assign

theorem matchAxis_decides (op : Operator) (axis : Nat) {x y : Element} (hx : t.Dimension x)
    (hy : t.Dimension y) : Decides t 2 (matchAxis op axis x y) fun z ds =>
      z = Shape.prefer x y ∧ Splits disagrees [⟨.equal, x, y⟩] ds := by
  have hwait : disagrees ⟨.equal, x, y⟩ = true → Decides t 2 (compare .equal x y) fun _ ds =>
      Splits disagrees [⟨.equal, x, y⟩] ds := fun h =>
    (compare_decides hx hy).imp fun _ ds hds => hds ▸ .waiting h
  cases x with
  | int m =>
    cases y with
    | int n =>
      refine .ite (fun hmn => .pure ⟨rfl, .holding rfl (holds_int ?_)⟩) fun _ => .fault _
      simp [CompareOp.holds, hmn]
    | symbolic n =>
      refine (hwait (by simp [Check.waits, Check.isOpen, Element.isSymbolic])).bind (n := 0)
        fun _ ds hds => ?_
      exact .pure ⟨rfl, by simpa using hds⟩
  | symbolic m =>
    cases y with
    | int n =>
      refine (hwait (by simp [Check.waits, Check.isOpen, Element.isSymbolic])).bind (n := 0)
        fun _ ds hds => ?_
      exact .pure ⟨rfl, by simpa using hds⟩
    | symbolic n =>
      rw [matchAxis]
      split
      · next hne =>
        refine (hwait ?_).bind (n := 0) fun _ ds hds => .pure ⟨rfl, by simpa using hds⟩
        simpa [Check.waits, Check.isOpen, Element.isSymbolic] using hne
      · next heq =>
        simp only [ne_eq, Decidable.not_not] at heq
        subst heq
        refine .pure ⟨rfl, .holding (by simp [Check.waits]) fun σ => ?_⟩
        obtain ⟨k, hk⟩ | ⟨name, hname, -⟩ := hx
        · cases hk
        · simp [Check.Holds, Check.test, hname, CompareOp.holds]

theorem matchAxes_decides (op : Operator) : ∀ {axis : Nat} {l r : Shape}, l.length = r.length →
    (∀ x ∈ l, t.Dimension x) → (∀ x ∈ r, t.Dimension x) →
    Decides t (2 * r.length) (matchAxes op axis l r) fun s ds =>
      s = List.zipWith Shape.prefer l r ∧ Splits disagrees (Shape.agreement l r) ds
  | _, [], [], _, _, _ => .pure ⟨rfl, .nil _⟩
  | axis, x :: l, y :: r, hlen, hl, hr => by
    have hfirst := matchAxis_decides op axis (hl x (.head _)) (hr y (.head _))
    have hrest : Decides t _ (matchAxes op (axis + 1) l r) _ := matchAxes_decides op
      (Nat.succ.inj hlen) (fun a ha => hl a (.tail _ ha)) fun a ha => hr a (.tail _ ha)
    refine (hfirst.bind fun z ds hz => hrest.bind (n := 0) fun s es hs => ?_).mono ?_
    · refine .pure ⟨by rw [hz.1, hs.1]; rfl, ?_⟩
      rw [List.append_nil]
      exact hz.2.append hs.2
    · rw [List.length_cons]
      omega

theorem matchShapes_decides (op : Operator) {l r : Shape} (hl : ∀ x ∈ l, t.Dimension x)
    (hr : ∀ x ∈ r, t.Dimension x) : Decides t (2 * r.length) (matchShapes op l r) fun s ds =>
      l.length = r.length ∧ s = List.zipWith Shape.prefer l r ∧
        Splits disagrees (Shape.agreement l r) ds :=
  .ite (fun hlen => (matchAxes_decides op hlen hl hr).imp fun _ _ h => ⟨hlen, h⟩) fun _ => .fault _

/-! ## Indices and folded axes -/

theorem checkBounds_decides : ∀ {axis : Nat} {index s : Shape}, (∀ x ∈ index, t.Dimension x) →
    (∀ x ∈ s, t.Dimension x) → Decides t (2 * s.length) (checkBounds axis index s) fun _ ds =>
      Splits Check.isOpen (Shape.bounds index s) ds := by
  intro axis index s
  fun_induction checkBounds axis index s with
  | case1 axis i is b bs hlt ih =>
    intro hi hs
    have hfirst : Splits Check.isOpen [⟨.less, .int i, .int b⟩] [] :=
      .holding rfl (holds_int (by simpa [CompareOp.holds] using hlt))
    have hrest := ih (fun x hx => hi x (.tail _ hx)) fun x hx => hs x (.tail _ hx)
    refine (hrest.imp fun _ ds hds => hfirst.append hds).mono ?_
    rw [List.length_cons]
    omega
  | case2 axis i is b bs hlt => exact fun _ _ => .fault _
  | case3 axis i is b bs hne ih =>
    intro hi hs
    have hopen : Check.isOpen ⟨.less, i, b⟩ = true := by
      cases i with
      | symbolic i => rfl
      | int i =>
        cases b with
        | symbolic b => rfl
        | int b => exact (hne i b rfl rfl).elim
    have hfirst : Decides t 2 (compare .less i b) _ := compare_decides (hi i (.head _)) (hs b (.head _))
    have hrest := ih (fun x hx => hi x (.tail _ hx)) fun x hx => hs x (.tail _ hx)
    refine (hfirst.bind fun _ ds hds => hrest.imp fun _ es hes => ?_).mono ?_
    · rw [hds]
      exact (Splits.waiting hopen).append hes
    · rw [List.length_cons]
      omega
  | case4 index axis s hne hne' =>
    intro hi hs
    have hnil : Shape.bounds index s = [] := by
      cases index with
      | nil => rfl
      | cons i is =>
        cases s with
        | nil => rfl
        | cons b bs => exact (hne' i is b bs rfl rfl).elim
    rw [hnil]
    exact .pure (.nil _)

theorem matchInner_decides {x y : Element} (hx : t.Dimension x) (hy : t.Dimension y) :
    Decides t 2 (matchInner x y) fun _ ds => Splits Check.isOpen [⟨.equal, x, y⟩] ds := by
  unfold matchInner
  split
  · refine .ite (fun hmn => .pure (.holding rfl (holds_int ?_))) fun _ => .fault _
    simp [CompareOp.holds, hmn]
  · next hne =>
    have hopen : Check.isOpen ⟨.equal, x, y⟩ = true := by
      cases x with
      | symbolic x => rfl
      | int x =>
        cases y with
        | symbolic y => rfl
        | int y => exact (hne x y rfl rfl).elim
    exact (compare_decides hx hy).imp fun _ ds hds => hds ▸ .waiting hopen

/-! ## The shape of one node -/

/-- The shape that a node has already plays no part in the one it is given. -/
theorem nodeShape_shape (op : Operator) (sh : Option Shape) (payload : Payload)
    (children : List Expr) :
    nodeShape (.node op sh payload children) = nodeShape (.node op none payload children) := by
  cases op <;> rfl

/-- A leaf has the shape that the table declares, if it does. -/
theorem nodeShape_leaf_run {name : String} {s : Symbol} (hs : t.get? name = some s) (p : Pending)
    (hp : Extends t p.table) : (nodeShape (.array name none)).run p =
      (match s.shape with
        | some shape => pure shape
        | none => fault (.undeclared name) : Infer Shape).run p := by
  have hget : Context.arraySymbol ⟨.array name none, p.table⟩ = .ok s :=
    SymbolTable.get_ok.2 (hp.get? hs)
  have hlookup : (nodeShape (.array name none)).run p =
      (Context.arraySymbol ⟨.array name none, p.table⟩ >>= fun s => .ok (s, p)) >>= fun r =>
        (match r.1.shape with
          | some shape => pure shape
          | none => fault (.undeclared name) : Infer Shape).run r.2 := rfl
  rw [hlookup, hget]
  rfl

theorem nodeShape_leaf_decides {name : String} {s : Symbol} (hs : t.get? name = some s) :
    Decides t 0 (nodeShape (.array name none)) fun shape ds => s.shape = some shape ∧ ds = [] := by
  have hrun := nodeShape_leaf_run hs
  cases hshape : s.shape with
  | some shape =>
    rw [hshape] at hrun
    exact .of_run hrun ⟨rfl, rfl⟩
  | none =>
    rw [hshape] at hrun
    exact .of_error hrun .shape

theorem nodeShape_unary_decides {op : Operator} {e : Expr} {s : Shape} (hop : op.leads = true)
    (hs : e.shape = some s) (hne : reducedScalar? (.unary op none e) = none) :
    Decides t 0 (nodeShape (.unary op none e)) fun shape ds => UnaryLaw op s shape ∧ ds = [] := by
  have hoperand : operandShape (.unary op none e) 0 = pure s := by
    simp [operandShape, operand, Expr.unary, hs]
  unfold nodeShape
  cases op <;> cases hop <;> simp only [Expr.unary, Expr.op_node] at hoperand ⊢
  case transpose =>
    rw [hoperand, map_pure]
    exact .pure ⟨.transpose, rfl⟩
  case shape =>
    rw [hoperand, pure_bind]
    exact .pure ⟨.shape, rfl⟩
  case dim => exact .pure ⟨.dim, rfl⟩
  case reduce =>
    rw [hoperand, map_pure]
    cases s with
    | nil => simp [reducedScalar?, Expr.unary, hs] at hne
    | cons n s => exact .pure ⟨.reduce, rfl⟩
  all_goals exact .throw .pattern

section Binary
variable {op : Operator} {l r : Expr} {a b : Shape}

theorem left_eq (ha : l.shape = some a) : operandShape (.binary op none l r) 0 = pure a := by
  simp [operandShape, operand, Expr.binary, ha]

theorem right_eq (hb : r.shape = some b) : operandShape (.binary op none l r) 1 = pure b := by
  simp [operandShape, operand, Expr.binary, hb]

/-- The value of the left operand is the one that `t` knows. -/
theorem leftValue_decides (hl : l.Known t) :
    Decides t 0 (operandValue (.binary op none l r) 0) fun v ds => v = t.valueOf l ∧ ds = [] := by
  refine .of_run (a := t.valueOf l) (fun p hp => operandValue_ok.2 ⟨⟨l, rfl, ?_, ?_⟩, rfl⟩) ⟨rfl, rfl⟩
  · exact (valueOf_extends hp hl).symm
  · intro name hname
    obtain ⟨s, hs⟩ := exists_get? (hp.mem_names (hl.arrayName hname))
    exact Option.isSome_iff_exists.2 ⟨s, hs⟩

theorem permutedShape_decides (hb : r.shape = some b) (hl : l.Known t) :
    Decides t 0 (permutedShape (.binary op none l r)) fun s ds => (∃ q targets,
      t.valueOf l = some q ∧ Shape.ints? q = some targets ∧ targets.length = b.length ∧
        Shape.place? targets b = some s) ∧ ds = [] := by
  unfold permutedShape
  rw [right_eq hb, pure_bind]
  refine (leftValue_decides hl).bind (n := 0) fun v ds hv => ?_
  obtain ⟨rfl, rfl⟩ := hv
  split
  · exact .fault _
  · next targets htargets =>
    obtain ⟨q, hq, hints⟩ := Option.bind_eq_some_iff.1 htargets
    refine .ite (fun _ => .fault _) fun hlen => ?_
    split
    · next placed hplaced => exact .pure ⟨⟨q, targets, hq, hints, by simpa using hlen, hplaced⟩, rfl⟩
    · exact .fault _

theorem selectedShape_decides (ha : l.shape = some a) (hb : r.shape = some b) (hl : l.Known t)
    (hv : ∀ x ∈ (t.valueOf l).getD [], t.Dimension x) (hdb : ∀ x ∈ b, t.Dimension x) :
    Decides t (2 * b.length) (selectedShape (.binary op none l r)) fun s ds => ∃ n, a = [.int n] ∧
      Shape.indexRank n ≤ b.length ∧ s = b.drop (Shape.indexRank n) ∧
      Splits Check.isOpen (Shape.bounds ((t.valueOf l).getD []) b) ds := by
  have hlength : Decides t 0 (indexLength a) fun k ds =>
      (∃ n, a = [.int n] ∧ k = Shape.indexRank n) ∧ ds = [] := by
    unfold indexLength
    split
    · exact .pure ⟨⟨_, rfl, rfl⟩, rfl⟩
    · exact .fault _
    · exact .fault _
  unfold selectedShape
  rw [left_eq ha, pure_bind, right_eq hb, pure_bind]
  refine (hlength.bind (n := 2 * b.length) fun k ds hk => ?_).mono (Nat.le_of_eq (Nat.zero_add _))
  obtain ⟨⟨n, rfl, rfl⟩, rfl⟩ := hk
  refine .ite (fun _ => .fault _) fun hle => ?_
  refine ((leftValue_decides hl).bind (n := 2 * b.length) fun v ds hvalue => ?_).mono
    (Nat.le_of_eq (Nat.zero_add _))
  obtain ⟨rfl, rfl⟩ := hvalue
  cases hval : t.valueOf l with
  | none => exact .pure ⟨n, rfl, Nat.le_of_not_lt hle, rfl, .nil _⟩
  | some index =>
    rw [hval] at hv
    refine (checkBounds_decides hv hdb).bind (n := 0) fun _ ds hds => ?_
    exact .pure ⟨n, rfl, Nat.le_of_not_lt hle, rfl, by simpa using hds⟩

theorem innerShape_decides (ha : l.shape = some a) (hb : r.shape = some b)
    (hda : ∀ x ∈ a, t.Dimension x) (hdb : ∀ x ∈ b, t.Dimension x) :
    Decides t (2 * b.length) (innerShape (.binary op none l r)) fun s ds => ∃ a' m n b', a = a' ++ [m] ∧
      b = n :: b' ∧ s = a' ++ b' ∧ Splits Check.isOpen [⟨.equal, m, n⟩] ds := by
  unfold innerShape
  rw [left_eq ha, pure_bind, right_eq hb, pure_bind]
  split
  · next m n b' hlast =>
    obtain ⟨a', rfl⟩ := List.getLast?_eq_some_iff.1 hlast
    refine ((matchInner_decides (hda m (by simp)) (hdb n (.head _))).bind (n := 0)
      fun _ ds hds => ?_).mono ?_
    · exact .pure ⟨a', m, n, b', rfl, rfl, by simp, by simpa using hds⟩
    · rw [List.length_cons]
      omega
  · exact .fault _

/-- **A node with two operands has a shape by the law of its operator**, or none, whatever else is in
the table. -/
theorem nodeShape_binary_decides (hop : op.joins = true) (ha : l.shape = some a)
    (hb : r.shape = some b) (hl : l.Known t) (hv : ∀ x ∈ (t.valueOf l).getD [], t.Dimension x)
    (hda : ∀ x ∈ a, t.Dimension x) (hdb : ∀ x ∈ b, t.Dimension x) :
    Decides t (2 * b.length) (nodeShape (.binary op none l r)) fun shape ds =>
      ∃ checks, BinaryLaw (t.valueOf l) op a b shape checks ∧ Splits (Check.waits op) checks ds := by
  unfold nodeShape
  cases op <;> cases hop
  case psi =>
    refine (selectedShape_decides ha hb hl hv hdb).imp fun s ds h => ?_
    obtain ⟨n, rfl, hle, rfl, hsplits⟩ := h
    exact ⟨_, .psi hle, hsplits⟩
  case permute =>
    refine ((permutedShape_decides hb hl).imp fun s ds h => ?_).mono (Nat.zero_le _)
    obtain ⟨⟨q, targets, hq, hints, hlen, hplaced⟩, rfl⟩ := h
    exact ⟨_, .permute hq hints hlen hplaced, .nil _⟩
  case assign =>
    have hequal : equalShape (.binary .assign none l r) = matchShapes .assign a b := by
      unfold equalShape
      rw [left_eq ha, pure_bind, right_eq hb, pure_bind]
      rfl
    refine hequal ▸ (matchShapes_decides .assign hda hdb).imp fun s ds h => ?_
    obtain ⟨hlen, rfl, hsplits⟩ := h
    exact ⟨_, .assign hlen, hsplits⟩
  case arith op =>
    have hextended : extendedShape (.binary (.arith op) none l r) =
        if a.isEmpty then pure b else if b.isEmpty then pure a else matchShapes (.arith op) a b := by
      unfold extendedShape
      rw [left_eq ha, pure_bind, right_eq hb, pure_bind]
      rfl
    refine hextended ▸ .ite (fun hnil => ?_) fun hne => .ite (fun hnil => ?_) fun hne' => ?_
    · rw [List.isEmpty_iff] at hnil
      subst hnil
      exact .pure ⟨_, .scalarLeft, .nil _⟩
    · rw [List.isEmpty_iff] at hnil hne
      subst hnil
      exact .pure ⟨_, .scalarRight hne, .nil _⟩
    · rw [List.isEmpty_iff] at hne hne'
      refine (matchShapes_decides (.arith op) hda hdb).imp fun s ds h => ?_
      obtain ⟨hlen, rfl, hsplits⟩ := h
      exact ⟨_, .pointwise hne hne' hlen, hsplits⟩
  case outer op =>
    have houter : outerShape (.binary (.outer op) none l r) = pure (a ++ b) := by
      unfold outerShape
      rw [left_eq ha, pure_bind, right_eq hb, pure_bind]
    exact houter ▸ .pure ⟨_, .outer, .nil _⟩
  case inner =>
    refine (innerShape_decides ha hb hda hdb).imp fun s ds h => ?_
    obtain ⟨a', m, n, b', rfl, rfl, rfl, hsplits⟩ := h
    exact ⟨_, .inner, hsplits⟩
  all_goals exact .throw .pattern

end Binary

end Infer

end PsiCalculus
