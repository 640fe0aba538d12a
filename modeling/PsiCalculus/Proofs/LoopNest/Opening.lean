import PsiCalculus.Proofs.LoopNest.Function

/-!
# The opening of a function

What the statements before the allocation and the loops do in a call, which gives the arguments their
arrays and those that are scalars their integers (`Call`). The ranks are compared first, so that every
axis that is read afterwards is there. Then each symbolic length is read off the first axis that has
it, and all other axes are compared; this succeeds exactly if some valuation of the lengths gives all
the arguments their shapes, and then there is only one.

* `Named named s s'`: from `s` to `s'` the lengths of the axes `named` got their names.
* `Decides`: the ways in which a call can end its opening, and what each says of the call.
* `Context.lower_decides`: the opening decides whether the arguments conform.
-/

namespace PsiCalculus

open SymbolTable

namespace LoopNest

/-! ## Calls -/

/-- What a function is called with: arrays, and the integers of the ones that are scalars. -/
structure Call (V : Type) where
  arrays : String → Tensor V
  integers : String → Int

/-- The arguments that a function takes. -/
def parameters : Expr → List String
  | .node .function _ (.function arguments _) _ => arguments
  | _ => []

namespace Call

variable {V : Type} (call : Call V)

/-- The memory that a call starts with: the arguments and nothing else. -/
def memory (arguments : List String) : Memory V where
  number name :=
    if name ∈ arguments ∧ (call.arrays name).shape = [] then some (call.integers name) else none
  array name := if name ∈ arguments then some (call.arrays name) else none

/-- The arguments have the ranks that are declared. -/
def SameRanks (declared : List (String × Shape)) : Prop :=
  ∀ p ∈ declared, (call.arrays p.1).rank = p.2.length

instance SameRanks.decidable (declared : List (String × Shape)) :
    Decidable (call.SameRanks declared) :=
  inferInstanceAs (Decidable (∀ p ∈ declared, (call.arrays p.1).rank = p.2.length))

/-- The arguments have the shapes that are declared, under a valuation. -/
def Fits (declared : List (String × Shape)) (σ : String → Int) : Prop :=
  ∀ p ∈ declared, (Env.ofValuation σ).elements p.2 = some (call.arrays p.1).shape

instance Fits.decidable (declared : List (String × Shape)) (σ : String → Int) :
    Decidable (call.Fits declared σ) :=
  inferInstanceAs (Decidable (∀ p ∈ declared,
    (Env.ofValuation σ).elements p.2 = some (call.arrays p.1).shape))

/-- The integers of the arguments, and a valuation of the other names. -/
def valuation (arguments : List String) (σ : String → Int) (name : String) : Int :=
  if name ∈ arguments then call.integers name else σ name

/-- The length of an axis in a call. -/
def extent (a : Axis) : Option Int := (call.arrays a.argument).shape[a.place]?

end Call

theorem mem_axesOf {declared : List (String × Shape)} {a : Axis} :
    a ∈ axesOf declared ↔ ∃ shape, (a.argument, shape) ∈ declared ∧
      shape[a.place]? = some a.length := by
  rw [axesOf, List.mem_flatMap]
  constructor
  · rintro ⟨⟨name, shape⟩, hmem, ha⟩
    obtain ⟨rfl, -, hget⟩ := mem_axesFrom.1 ha
    exact ⟨shape, hmem, hget⟩
  · rintro ⟨shape, hmem, hget⟩
    exact ⟨_, hmem, mem_axesFrom.2 ⟨rfl, Nat.zero_le _, hget⟩⟩

/-- A call fits if its ranks and the lengths of all axes are right. -/
theorem Call.fits_iff {V : Type} {call : Call V} {declared : List (String × Shape)}
    {σ : String → Int} : call.Fits declared σ ↔ call.SameRanks declared ∧
      ∀ a ∈ axesOf declared, (Env.ofValuation σ).element a.length = call.extent a := by
  constructor
  · intro h
    refine ⟨fun p hp => (Env.elements_eq_some.1 (h p hp)).1, fun a ha => ?_⟩
    obtain ⟨shape, hmem, hget⟩ := mem_axesOf.1 ha
    exact (Env.elements_eq_some.1 (h _ hmem)).2 a.place a.length hget
  · rintro ⟨hranks, haxes⟩ ⟨name, shape⟩ hp
    refine Env.elements_eq_some.2 ⟨hranks _ hp, fun i x hx => ?_⟩
    exact haxes ⟨name, i, x⟩ (mem_axesOf.2 ⟨shape, hp, hx⟩)

section
variable {t : SymbolTable} {arguments : List String}

theorem mem_declaredShapes {name : String} {shape : Shape} :
    (name, shape) ∈ declaredShapes t arguments ↔
      name ∈ arguments ∧ ∃ s, t.get? name = some s ∧ s.shape = some shape := by
  simp only [declaredShapes, List.mem_filterMap, Option.map_eq_some_iff, Option.bind_eq_some_iff,
    Prod.mk.injEq]
  constructor
  · rintro ⟨_, hn, _, ⟨s, hs, hshape⟩, rfl, rfl⟩
    exact ⟨hn, s, hs, hshape⟩
  · rintro ⟨hn, s, hs, hshape⟩
    exact ⟨name, hn, shape, ⟨s, hs, hshape⟩, rfl, rfl⟩

/-- The symbolic lengths of the arguments are what sizes arrays. -/
theorem sizes_iff (ht : t.Sound) (h : t.arguments = .ok arguments) {name : String} :
    t.Sizes name ↔ ∃ a ∈ axesOf (declaredShapes t arguments), a.length = .named name := by
  constructor
  · intro hn
    obtain ⟨array, harray, shape, hs, hmem⟩ := hn.exists_argument ht h
    obtain ⟨i, hi⟩ := List.mem_iff_getElem?.1 hmem
    exact ⟨⟨array, i, .named name⟩,
      mem_axesOf.2 ⟨shape, mem_declaredShapes.2 ⟨harray, _, hs, rfl⟩, hi⟩, rfl⟩
  · rintro ⟨a, ha, hlength⟩
    obtain ⟨shape, hmem, hget⟩ := mem_axesOf.1 ha
    obtain ⟨harg, s, hs, hshape⟩ := mem_declaredShapes.1 hmem
    obtain ⟨⟨hu, shape', hs'⟩, -⟩ := (mem_arguments ht h).1 harg
    cases hs.symm.trans hs'
    cases hshape
    exact ⟨a.argument, shape, hu, hs, hlength ▸ List.mem_of_getElem? hget⟩

theorem axis_dimension (ht : t.Sound) {a : Axis}
    (ha : a ∈ axesOf (declaredShapes t arguments)) : t.Dimension a.length := by
  obtain ⟨shape, hmem, hget⟩ := mem_axesOf.1 ha
  obtain ⟨-, s, hs, hshape⟩ := mem_declaredShapes.1 hmem
  exact ht.shape_element hs hshape _ (List.mem_of_getElem? hget)

theorem axis_argument {a : Axis} (ha : a ∈ axesOf (declaredShapes t arguments)) :
    a.argument ∈ arguments := by
  obtain ⟨shape, hmem, -⟩ := mem_axesOf.1 ha
  exact (mem_declaredShapes.1 hmem).1

/-- A valuation that agrees with a memory on all sizes agrees on the lengths of the axes. -/
theorem axis_element {V : Type} (ht : t.Sound) (h : t.arguments = .ok arguments) {m : Memory V}
    {σ : String → Int} (hσ : ∀ name, t.Sizes name → m.number name = some (σ name)) {a : Axis}
    (ha : a ∈ axesOf (declaredShapes t arguments)) :
    (Env.ofValuation σ).element a.length = m.env.element a.length := by
  obtain ⟨n, hn⟩ | ⟨name, hn, -⟩ := axis_dimension ht ha
  · rw [hn]
    rfl
  · rw [hn, Env.element_named, Env.element_named, Memory.env_number, Env.number_ofValuation,
      hσ name ((sizes_iff ht h).2 ⟨a, ha, hn⟩)]

/-- No length is named like an argument. -/
theorem axis_ne_argument (ht : t.Sound) (h : t.arguments = .ok arguments) {a b : Axis}
    (ha : a ∈ axesOf (declaredShapes t arguments)) (hb : b ∈ axesOf (declaredShapes t arguments)) :
    a.length ≠ .named b.argument :=
  fun hn => not_mem_arguments ht h ((sizes_iff ht h).2 ⟨a, ha, hn⟩) (axis_argument hb)

end

/-! ## Conditions of the guards -/

section
variable {t : SymbolTable}

theorem RankCheck.test {e : Expr} {p : String × Shape} (h : RankCheck t e p) (ρ : Env) :
    Env.test t ρ e = (ρ.extent p.1).map fun lengths => decide (lengths.length = p.2.length) := by
  cases h with
  | @intro argument shape s rank hs =>
    have hdim : Env.scalar t ρ (.unary .dim (some []) (.array argument s)) =
        (ρ.extent argument).map fun lengths => (lengths.length : Int) := by
      rw [Expr.unary, Env.scalar, Env.leafExtent_array]
      cases ρ.extent argument <;> rfl
    rw [equal, Env.test_compare, hdim, hs.scalar, Env.element_int]
    cases ρ.extent argument with
    | none => rfl
    | some lengths =>
      show some ((lengths.length : Int) == (shape.length : Int)) = _
      rw [beq_eq_decide]
      exact congrArg some (decide_eq_decide.2 Int.natCast_inj)

theorem Compares.test {e : Expr} {a : Axis} (h : Compares t e a) (ρ : Env) :
    Env.test t ρ e =
      (ρ.element a.length).bind fun n => (a.extent ρ).map fun i => decide (n = i) := by
  cases h with
  | intro hs hr =>
    rw [equal, Env.test_compare, hs.scalar, hr.scalar]
    cases ρ.element a.length with
    | none => rfl
    | some n =>
      cases a.extent ρ with
      | none => rfl
      | some i => simp [CompareOp.holds, beq_eq_decide]

end

/-! ## Naming the lengths -/

section
variable {V : Type} {D : Domain V} {t : SymbolTable}

/-- From `s` to `s'` the lengths of the axes got their names, and nothing else happened. -/
structure Named (named : List Axis) (s s' : Store V) : Prop where
  writes : s'.writes = s.writes
  number : ∀ a ∈ named, ∀ n, a.length = .named n →
    (a.extent s.memory.env).isSome ∧ s'.memory.number n = a.extent s.memory.env
  other : ∀ n, (∀ a ∈ named, a.length ≠ .named n) →
    s'.memory.number n = s.memory.number n ∧ s'.memory.array n = s.memory.array n

theorem Assigns.exec {e : Expr} {a : Axis} (h : Assigns t e a) {name : String}
    (hn : a.length = .named name) (s : Store V) :
    exec D t e s = .ofOption ((a.extent s.memory.env).map fun i =>
      { s with memory := s.memory.assign D name i }) := by
  cases h with
  | @intro a name' length hn' hr =>
    cases hn.symm.trans hn'
    rw [Expr.binary, LoopNest.exec, assign_scalar, hr.scalar]

theorem Axis.extent_assign {a : Axis} {name : String} (hne : a.argument ≠ name) (m : Memory V)
    (i : Int) : a.extent (m.assign D name i).env = a.extent m.env := by
  simp [Axis.extent, Memory.env, Memory.assign, hne]

/-- One more length gets its name before the others do. -/
theorem Named.cons {named : List Axis} {s s' : Store V} {a : Axis} {name : String} {i : Int}
    (hname : a.length = .named name) (hextent : a.extent s.memory.env = some i)
    (hnew : ∀ b ∈ named, b.length ≠ .named name) (hother : ∀ b ∈ named, b.argument ≠ name)
    (h : Named named { s with memory := s.memory.assign D name i } s') :
    Named (a :: named) s s' := by
  refine ⟨h.writes, fun b hb n hbn => ?_, fun n hn => ?_⟩
  · rcases List.mem_cons.1 hb with rfl | hb
    · cases hname.symm.trans hbn
      rw [(h.other name hnew).1, hextent]
      simp [Memory.assign]
    · rw [← Axis.extent_assign (hother b hb) s.memory i]
      exact h.number b hb n hbn
  · have hne : n ≠ name := fun heq => hn a (.head _) (heq ▸ hname)
    obtain ⟨hnumber, harray⟩ := h.other n fun b hb => hn b (.tail _ hb)
    rw [hnumber, harray]
    simp [Memory.assign, hne]

/-- The run of the assignments: all lengths get their names, unless an axis is missing. -/
theorem execAll_assigns {es : List Expr} {named : List Axis}
    (h : List.Forall₂ (Assigns t) es named) (hnodup : (named.map Axis.length).Nodup)
    (hother : ∀ a ∈ named, ∀ b ∈ named, a.length ≠ .named b.argument) (s : Store V) :
    (∃ s', execAll D t es s = .done s' ∧ Named named s s') ∨
      execAll D t es s = .stuck ∧ ∃ a ∈ named, a.extent s.memory.env = none := by
  induction h generalizing s with
  | nil => exact .inl ⟨s, by rw [execAll], rfl, by simp, fun _ _ => ⟨rfl, rfl⟩⟩
  | @cons e a es named ha hrest ih =>
    obtain ⟨name, hname⟩ : ∃ name, a.length = .named name := by
      cases ha with
      | intro hn => exact ⟨_, hn⟩
    obtain ⟨hfirst, hnodup⟩ := List.nodup_cons.1 hnodup
    rw [execAll, ha.exec hname]
    cases hextent : a.extent s.memory.env with
    | none => exact .inr ⟨rfl, a, .head _, hextent⟩
    | some i =>
      have hnew : ∀ b ∈ named, b.length ≠ .named name := fun b hb hbn =>
        hfirst (hname ▸ hbn ▸ List.mem_map_of_mem hb)
      -- the arguments are none of the names, so the other axes are as long as before
      have hne : ∀ b ∈ named, b.argument ≠ name := by
        intro b hb heq
        exact hother a (.head _) b (.tail _ hb) (heq ▸ hname)
      rcases ih hnodup (fun b hb c hc => hother b (.tail _ hb) c (.tail _ hc))
          { s with memory := s.memory.assign D name i } with
        ⟨s', hrun, hs'⟩ | ⟨hrun, b, hb, hnone⟩
      · exact .inl ⟨s', hrun, hs'.cons hname hextent hnew hne⟩
      · rw [Axis.extent_assign (hne b hb)] at hnone
        exact .inr ⟨hrun, b, .tail _ hb, hnone⟩

/-- A length that got a name is an array without axes, too. -/
theorem assigns_scalar {es : List Expr} {named : List Axis}
    (h : List.Forall₂ (Assigns t) es named) (hnodup : (named.map Axis.length).Nodup)
    (hother : ∀ a ∈ named, ∀ b ∈ named, a.length ≠ .named b.argument) {s s' : Store V}
    (hrun : execAll D t es s = .done s') {a : Axis} (ha : a ∈ named) {n : String}
    (hn : a.length = .named n) :
    s'.memory.array n = (s'.memory.number n).map fun i => .scalar (D.ofInt i) := by
  induction h generalizing s with
  | nil => cases ha
  | @cons e b es named hb hrest ih =>
    obtain ⟨name, hname⟩ : ∃ name, b.length = .named name := by
      cases hb with
      | intro hn => exact ⟨_, hn⟩
    obtain ⟨hfirst, hnodup'⟩ := List.nodup_cons.1 hnodup
    have hother' : ∀ a ∈ named, ∀ b ∈ named, a.length ≠ .named b.argument :=
      fun a ha b hb => hother a (.tail _ ha) b (.tail _ hb)
    rw [execAll, hb.exec hname] at hrun
    cases hextent : b.extent s.memory.env with
    | none =>
      rw [hextent] at hrun
      cases hrun
    | some i =>
      rw [hextent, Option.map_some, Outcome.ofOption, Outcome.andThen] at hrun
      rcases List.mem_cons.1 ha with rfl | ha
      · -- what is assigned afterwards has other names
        cases hname.symm.trans hn
        rcases execAll_assigns (D := D) hrest hnodup' hother'
            { s with memory := s.memory.assign D n i } with ⟨s₁, hs₁, hnamed⟩ | ⟨hstuck, -⟩
        · cases hrun.symm.trans hs₁
          obtain ⟨hnumber, harray⟩ := hnamed.other n fun b hb hbn =>
            hfirst (hname ▸ hbn ▸ List.mem_map_of_mem hb)
          rw [hnumber, harray]
          simp [Memory.assign]
        · cases hrun.symm.trans hstuck
      · exact ih hnodup' hother' hrun ha

end

/-! ## The run of a call -/

section
variable {V : Type} {D : Domain V} {t₀ t : SymbolTable} {arguments : List String} {checks : Checks}
  {call : Call V}

/-- The store at the start of a call. -/
def Call.start (call : Call V) (arguments : List String) : Store V := ⟨call.memory arguments, []⟩

theorem Call.extent_start {a : Axis} (ha : a ∈ axesOf (declaredShapes t₀ arguments)) :
    a.extent (call.memory arguments).env = call.extent a := by
  simp [Axis.extent, Memory.env, Call.memory, Call.extent, axis_argument ha]

theorem Call.SameRanks.extent_isSome {declared : List (String × Shape)} (h : call.SameRanks declared)
    {a : Axis} (ha : a ∈ axesOf declared) : (call.extent a).isSome := by
  obtain ⟨shape, hmem, hget⟩ := mem_axesOf.1 ha
  have hlt := (List.getElem?_eq_some_iff.1 hget).1
  have hrank : (call.arrays a.argument).shape.length = shape.length := h _ hmem
  exact Option.isSome_iff_exists.2 ⟨_, List.getElem?_eq_getElem (by omega)⟩

/-- The ranks are compared. -/
theorem Checked.ranks_run (hc : Checked t (declaredShapes t₀ arguments) checks) :
    execAll D t (guardAll .dimension checks.ranks) (call.start arguments) =
      if call.SameRanks (declaredShapes t₀ arguments) then .done (call.start arguments)
      else .raised .dimension := by
  refine execAll_guardAll_decide _ hc.ranks fun e p hp hr => ?_
  have harg : p.1 ∈ arguments := (mem_declaredShapes.1 hp).1
  rw [hr.test]
  simp only [Call.start, Memory.env, Call.memory, if_pos harg, Option.map_some]
  rfl

/-- After the lengths got their names: each stands for the length of one of its axes, and the other
names for what they did. -/
structure Opened (t₀ : SymbolTable) (arguments : List String) (call : Call V) (m : Memory V) : Prop where
  sized : ∀ name, t₀.Sizes name → ∃ a ∈ axesOf (declaredShapes t₀ arguments),
    a.length = .named name ∧ m.number name = call.extent a
  kept : ∀ name, ¬ t₀.Sizes name → m.number name = (call.memory arguments).number name ∧
    m.array name = (call.memory arguments).array name

theorem Surveyed.exists_named (ht : t₀.Sound) (harg : t₀.arguments = .ok arguments)
    {named compared : List Axis} (hs : Surveyed t named compared checks)
    (hsplit : ∀ a, a ∈ axesOf (declaredShapes t₀ arguments) ↔ a ∈ named ∨ a ∈ compared)
    {name : String} : t₀.Sizes name ↔ ∃ a ∈ named, a.length = .named name := by
  rw [sizes_iff ht harg]
  constructor
  · rintro ⟨a, ha, hn⟩
    rcases (hsplit a).1 ha with hmem | hmem
    · exact ⟨a, hmem, hn⟩
    · have := (hs.assigned name).1 (hs.covered a hmem name hn)
      exact List.mem_map.1 this
  · rintro ⟨a, ha, hn⟩
    exact ⟨a, (hsplit a).2 (.inl ha), hn⟩

/-- The lengths get their names, if the ranks are right. -/
theorem Surveyed.assignments_run (ht : t₀.Sound) (harg : t₀.arguments = .ok arguments)
    {named compared : List Axis} (hs : Surveyed t named compared checks)
    (hsplit : ∀ a, a ∈ axesOf (declaredShapes t₀ arguments) ↔ a ∈ named ∨ a ∈ compared)
    (hranks : call.SameRanks (declaredShapes t₀ arguments)) :
    ∃ s, execAll D t checks.assignments (call.start arguments) = .done s ∧
      Opened t₀ arguments call s.memory ∧
      ∀ a ∈ named, s.memory.env.element a.length = call.extent a := by
  have hmem : ∀ a ∈ named, a ∈ axesOf (declaredShapes t₀ arguments) :=
    fun a ha => (hsplit a).2 (.inl ha)
  have hother : ∀ a ∈ named, ∀ b ∈ named, a.length ≠ .named b.argument :=
    fun a ha b hb => axis_ne_argument ht harg (hmem a ha) (hmem b hb)
  rcases execAll_assigns (D := D) hs.assignments hs.nodup hother (call.start arguments) with
    ⟨s, hrun, hnamed⟩ | ⟨-, a, ha, hnone⟩
  · have hnumber : ∀ a ∈ named, ∀ name, a.length = .named name →
        s.memory.number name = call.extent a := by
      intro a ha name hn
      rw [(hnamed.number a ha name hn).2]
      exact Call.extent_start (hmem a ha)
    refine ⟨s, hrun, ⟨fun name hn => ?_, fun name hn => hnamed.other name fun a ha hlength => ?_⟩,
      fun a ha => ?_⟩
    · obtain ⟨a, ha, hlength⟩ := (hs.exists_named ht harg hsplit).1 hn
      exact ⟨a, hmem a ha, hlength, hnumber a ha name hlength⟩
    · exact hn ((hs.exists_named ht harg hsplit).2 ⟨a, ha, hlength⟩)
    · obtain ⟨e, -, hassigns⟩ := exists_of_mem_right hs.assignments ha
      cases hassigns with
      | intro hlength =>
        rw [hlength, Env.element_named, Memory.env_number, hnumber a ha _ hlength]
  · have := hranks.extent_isSome (hmem a ha)
    rw [← Call.extent_start (hmem a ha), Option.isSome_iff_ne_none] at this
    exact absurd hnone this

namespace Opened

variable {m : Memory V}

theorem extent (ht : t₀.Sound) (harg : t₀.arguments = .ok arguments)
    (h : Opened t₀ arguments call m) {a : Axis} (ha : a ∈ axesOf (declaredShapes t₀ arguments)) :
    a.extent m.env = call.extent a := by
  have hn : ¬ t₀.Sizes a.argument := fun hn => not_mem_arguments ht harg hn (axis_argument ha)
  rw [← Call.extent_start ha]
  simp only [Axis.extent, Memory.env, (h.kept _ hn).2]

/-- The only valuation that a call may fit is the one it was given names by. -/
theorem number (h : Opened t₀ arguments call m) {σ : String → Int}
    (hσ : call.Fits (declaredShapes t₀ arguments) σ) {name : String} (hn : t₀.Sizes name) :
    m.number name = some (σ name) := by
  obtain ⟨a, ha, hlength, hnumber⟩ := h.sized name hn
  rw [hnumber, ← (Call.fits_iff.1 hσ).2 a ha, hlength]
  rfl

theorem number_isSome (h : Opened t₀ arguments call m)
    (hranks : call.SameRanks (declaredShapes t₀ arguments)) {name : String} (hn : t₀.Sizes name) :
    (m.number name).isSome := by
  obtain ⟨a, ha, -, hnumber⟩ := h.sized name hn
  rw [hnumber]
  exact hranks.extent_isSome ha

theorem element_isSome (ht : t₀.Sound) (harg : t₀.arguments = .ok arguments)
    (h : Opened t₀ arguments call m) (hranks : call.SameRanks (declaredShapes t₀ arguments))
    {a : Axis} (ha : a ∈ axesOf (declaredShapes t₀ arguments)) :
    (m.env.element a.length).isSome := by
  obtain ⟨n, hn⟩ | ⟨name, hn, -⟩ := axis_dimension ht ha
  · rw [hn]
    rfl
  · rw [hn, Env.element_named, Memory.env_number]
    exact h.number_isSome hranks ((sizes_iff ht harg).2 ⟨a, ha, hn⟩)

/-- A call fits a valuation exactly if all axes have the lengths that the names stand for. -/
theorem exists_fits_iff (ht : t₀.Sound) (harg : t₀.arguments = .ok arguments)
    (h : Opened t₀ arguments call m) (hranks : call.SameRanks (declaredShapes t₀ arguments)) :
    (∃ σ, call.Fits (declaredShapes t₀ arguments) σ) ↔
      ∀ a ∈ axesOf (declaredShapes t₀ arguments), m.env.element a.length = call.extent a := by
  constructor
  · rintro ⟨σ, hσ⟩ a ha
    rw [← (Call.fits_iff.1 hσ).2 a ha, axis_element ht harg (fun name hn => h.number hσ hn) ha]
  · intro haxes
    refine ⟨fun name => (m.number name).getD 0, Call.fits_iff.2 ⟨hranks, fun a ha => ?_⟩⟩
    rw [← haxes a ha]
    refine axis_element ht harg (fun name hn => ?_) ha
    obtain ⟨i, hi⟩ := Option.isSome_iff_exists.1 (h.number_isSome hranks hn)
    rw [hi, Option.getD_some]

/-- The axes whose lengths had a name already are compared. -/
theorem lengths_run (ht : t₀.Sound) (harg : t₀.arguments = .ok arguments) {s : Store V}
    (h : Opened t₀ arguments call s.memory)
    (hranks : call.SameRanks (declaredShapes t₀ arguments)) {compared : List Axis}
    (hs : List.Forall₂ (Compares t) checks.lengths compared)
    (hmem : ∀ a ∈ compared, a ∈ axesOf (declaredShapes t₀ arguments)) :
    execAll D t (guardAll .shape checks.lengths) s =
      if ∀ a ∈ compared, s.memory.env.element a.length = call.extent a
      then .done s else .raised .shape := by
  refine execAll_guardAll_decide _ hs fun e a ha hcompares => ?_
  obtain ⟨n, hn⟩ := Option.isSome_iff_exists.1 (h.element_isSome ht harg hranks (hmem a ha))
  obtain ⟨i, hi⟩ := Option.isSome_iff_exists.1 (hranks.extent_isSome (hmem a ha))
  rw [hcompares.test, h.extent ht harg (hmem a ha), hn, hi]
  simp

/-- A dimension is what the valuation and the integers of the arguments say. -/
theorem element (ht : t₀.Sound) (harg : t₀.arguments = .ok arguments)
    (h : Opened t₀ arguments call m) {σ : String → Int}
    (hσ : call.Fits (declaredShapes t₀ arguments) σ) {x : Element} (hx : t₀.Dimension x) :
    m.env.element x = (Env.ofValuation (call.valuation arguments σ)).element x := by
  obtain ⟨n, rfl⟩ | ⟨name, rfl, hu, hs⟩ := hx
  · rfl
  · rw [Env.element_named, Env.element_named, Memory.env_number, Env.number_ofValuation]
    by_cases hn : t₀.Sizes name
    · rw [h.number hσ hn, Call.valuation, if_neg (not_mem_arguments ht harg hn)]
    · -- what sizes no array is an argument, and a scalar
      have hmem : name ∈ arguments := (mem_arguments ht harg).2 ⟨⟨hu, _, hs⟩, hn⟩
      have hfits : some [] = some (call.arrays name).shape :=
        hσ (name, []) (mem_declaredShapes.2 ⟨hmem, _, hs, rfl⟩)
      have hshape : (call.arrays name).shape = [] := (Option.some.inj hfits).symm
      rw [(h.kept name hn).1, Call.valuation, if_pos hmem]
      exact if_pos ⟨hmem, hshape⟩

end Opened

/-! ## The verdict -/

/-- The ways in which the opening of a call ends. -/
inductive Decides (r : Context) (arguments : List String) (call : Call V) : Outcome (Store V) → Prop
  | dimension : ¬ call.SameRanks (declaredShapes r.table arguments) →
      Decides r arguments call (.raised .dimension)
  | shape : call.SameRanks (declaredShapes r.table arguments) →
      (¬ ∃ σ, call.Fits (declaredShapes r.table arguments) σ) →
      Decides r arguments call (.raised .shape)
  | domain : (∃ σ, call.Fits (declaredShapes r.table arguments) σ) →
      (∀ σ, call.Fits (declaredShapes r.table arguments) σ →
        r.guardTest (.ofValuation (call.valuation arguments σ)) = some false) →
      Decides r arguments call (.raised .incompatibleShape)
  | done {s : Store V} : (∃ σ, call.Fits (declaredShapes r.table arguments) σ) →
      (∀ σ, call.Fits (declaredShapes r.table arguments) σ →
        r.guardTest (.ofValuation (call.valuation arguments σ)) = some true) →
      Opened r.table arguments call s.memory → Decides r arguments call (.done s)

/-- The guard of the domain is tested after all arguments have their shapes. -/
theorem domain_run {r : Context} (ht : r.table.Sound) (harg : r.table.arguments = .ok arguments)
    (hx : Extends r.table t) {ds : List Check} (hguards : GuardsAll r.table r.guard?.toList ds)
    (hds : ∀ d ∈ ds, d.Within r.table) {s : Store V}
    (h : Opened r.table arguments call s.memory)
    (hfits : ∃ σ, call.Fits (declaredShapes r.table arguments) σ) :
    Decides r arguments call
      (execAll D t (r.guard?.map (guard .incompatibleShape)).toList s) := by
  have htests : ∀ σ, call.Fits (declaredShapes r.table arguments) σ → ∀ d ∈ ds,
      d.test s.memory.env = d.test (.ofValuation (call.valuation arguments σ)) := by
    intro σ hσ d hd
    rw [Check.test, Check.test, h.element ht harg hσ (hds d hd).1, h.element ht harg hσ (hds d hd).2]
  cases hguard : r.guard? with
  | none =>
    rw [Option.map_none, Option.toList_none, execAll]
    exact .done hfits (fun σ _ => by rw [Context.guardTest, hguard]; rfl) h
  | some g =>
    rw [hguard] at hguards
    cases hguards with
    | cons hg hnil =>
      cases hnil
      rw [List.append_nil] at htests
      have htest : ∀ σ, call.Fits (declaredShapes r.table arguments) σ →
          r.guardTest (.ofValuation (call.valuation arguments σ)) =
            Env.test t s.memory.env g := by
        intro σ hσ
        rw [Context.guardTest, hguard, hg.test_congr hx (htests σ hσ)]
        rfl
      rw [Option.map_some, Option.toList_some, execAll_singleton, exec_guard]
      obtain ⟨σ, hσ⟩ := hfits
      have hsome : (Env.test t s.memory.env g).isSome := by
        refine (hg.mono hx).test_isSome fun d hd => ?_
        rw [htests σ hσ d hd]
        exact (hds d (by simpa using hd)).test_isSome _
      cases hvalue : Env.test t s.memory.env g with
      | none => simp [hvalue] at hsome
      | some b =>
        cases b with
        | true => exact .done ⟨σ, hσ⟩ (fun τ hτ => (htest τ hτ).trans hvalue) h
        | false => exact .domain ⟨σ, hσ⟩ fun τ hτ => (htest τ hτ).trans hvalue

/-- Of an opening that is done only the assignments did anything. -/
theorem Lowers.assignments_run {guards : Bool} {r f : Context} {p : Parts} (h : Lowers guards r p f)
    (ht : r.table.Sound) {s s' : Store V}
    (hrun : execAll D f.table (opening f.tree) s = .done s') :
    execAll D f.table p.checks.assignments s = .done s' := by
  rw [h.opening_eq ht, preamble] at hrun
  split at hrun
  · simp only [execAll_append, Outcome.andThen_eq_done] at hrun
    obtain ⟨s₃, ⟨s₂, ⟨s₁, hranks, hrun⟩, hlengths⟩, hdomain⟩ := hrun
    obtain rfl := execAll_guards_done hdomain
    obtain rfl := execAll_guards_done hlengths
    obtain rfl := execAll_guards_done hranks
    exact hrun
  · exact hrun

/-- The axes that lengths are read off. -/
theorem Lowers.assigns {guards : Bool} {r f : Context} {p : Parts} (h : Lowers guards r p f)
    (ht : r.table.Sound) : ∃ named, List.Forall₂ (Assigns f.table) p.checks.assignments named ∧
      (named.map Axis.length).Nodup ∧
      (∀ a ∈ named, ∀ b ∈ named, a.length ≠ .named b.argument) ∧
      ∀ name, r.table.Sizes name ↔ ∃ a ∈ named, a.length = .named name := by
  obtain ⟨named, compared, hsplit, hs⟩ := ((h.checked ht).2.mono h.extends_checked).surveys
  exact ⟨named, hs.assignments, hs.nodup, fun a ha b hb =>
    axis_ne_argument ht h.arguments ((hsplit a).2 (.inl ha)) ((hsplit b).2 (.inl hb)),
    fun name => hs.exists_named ht h.arguments hsplit⟩

/-- An opening that is done has given the lengths their names, and did nothing else. -/
theorem Lowers.named {guards : Bool} {r f : Context} {p : Parts} (h : Lowers guards r p f)
    (ht : r.table.Sound) {s s' : Store V}
    (hrun : execAll D f.table (opening f.tree) s = .done s') :
    ∃ named, (∀ name, r.table.Sizes name ↔ ∃ a ∈ named, a.length = .named name) ∧
      Named named s s' := by
  obtain ⟨named, hassigns, hnodup, hother, hsizes⟩ := h.assigns ht
  have hassignments := h.assignments_run ht hrun
  refine ⟨named, hsizes, ?_⟩
  rcases execAll_assigns (D := D) hassigns hnodup hother s with ⟨s₁, hs₁, hnamed⟩ | ⟨hstuck, -⟩
  · cases hassignments.symm.trans hs₁
    exact hnamed
  · cases hassignments.symm.trans hstuck

/-- After the opening a length is an array without axes. -/
theorem Lowers.size_array {guards : Bool} {r f : Context} {p : Parts} (h : Lowers guards r p f)
    (ht : r.table.Sound) {s s' : Store V}
    (hrun : execAll D f.table (opening f.tree) s = .done s') {name : String}
    (hn : r.table.Sizes name) :
    s'.memory.array name = (s'.memory.number name).map fun i => .scalar (D.ofInt i) := by
  obtain ⟨named, hassigns, hnodup, hother, hsizes⟩ := h.assigns ht
  obtain ⟨a, ha, hlength⟩ := (hsizes name).1 hn
  exact assigns_scalar hassigns hnodup hother (h.assignments_run ht hrun) ha hlength

theorem Lowers.decides {r f : Context} {p : Parts} (h : Lowers true r p f) (ht : r.table.Sound)
    {ds : List Check} (hguards : GuardsAll r.table r.guard?.toList ds)
    (hds : ∀ d ∈ ds, d.Within r.table) (D : Domain V) (call : Call V) :
    Decides r p.arguments call
      (execAll D f.table (opening f.tree) (call.start p.arguments)) := by
  obtain ⟨hgrows, hchecked⟩ := h.checked ht
  have hx := h.extends_checked
  have hc := hchecked.mono hx
  obtain ⟨named, compared, hsplit, hs⟩ := hc.surveys
  rw [h.opening_eq ht, preamble, if_pos rfl]
  simp only [execAll_append, hc.ranks_run]
  by_cases hranks : call.SameRanks (declaredShapes r.table p.arguments)
  · obtain ⟨s, hrun, hopened, hnamed⟩ := hs.assignments_run (D := D) ht h.arguments hsplit hranks
    have hmem : ∀ a ∈ compared, a ∈ axesOf (declaredShapes r.table p.arguments) :=
      fun a ha => (hsplit a).2 (.inr ha)
    have hiff := hopened.exists_fits_iff ht h.arguments hranks
    rw [if_pos hranks, Outcome.andThen, hrun, Outcome.andThen,
      hopened.lengths_run ht h.arguments hranks hs.lengths hmem]
    by_cases hcompared : ∀ a ∈ compared, s.memory.env.element a.length = call.extent a
    · rw [if_pos hcompared, Outcome.andThen]
      refine domain_run ht h.arguments (hgrows.grows.entries.trans hx) hguards hds hopened
        (hiff.2 fun a ha => ?_)
      rcases (hsplit a).1 ha with ha | ha
      · exact hnamed a ha
      · exact hcompared a ha
    · rw [if_neg hcompared, Outcome.andThen]
      exact .shape hranks fun hfits => hcompared fun a ha => hiff.1 hfits a (hmem a ha)
  · rw [if_neg hranks]
    exact .dimension hranks

theorem Call.Fits.same_ranks {declared : List (String × Shape)} {σ : String → Int}
    (h : call.Fits declared σ) : call.SameRanks declared := (Call.fits_iff.1 h).1

/-- **The opening of a call that conforms is done**, with guards or without. -/
theorem Lowers.opened {guards : Bool} {r f : Context} {p : Parts} (h : Lowers guards r p f)
    (ht : r.table.Sound) {ds : List Check} (hguards : GuardsAll r.table r.guard?.toList ds)
    (hds : ∀ d ∈ ds, d.Within r.table) (D : Domain V) {call : Call V} {σ : String → Int}
    (hfits : call.Fits (declaredShapes r.table p.arguments) σ)
    (hdomain : r.guardTest (.ofValuation (call.valuation p.arguments σ)) = some true) :
    ∃ s, execAll D f.table (opening f.tree) (call.start p.arguments) = .done s ∧
      Opened r.table p.arguments call s.memory := by
  cases guards with
  | true =>
    have hdecides := h.decides ht hguards hds D call
    generalize execAll D f.table (opening f.tree) (call.start p.arguments) = run at hdecides
    cases hdecides with
    | dimension hranks => exact absurd hfits.same_ranks hranks
    | shape _ hno => exact absurd ⟨σ, hfits⟩ hno
    | domain _ hfalse => cases hdomain.symm.trans (hfalse σ hfits)
    | done _ _ hopened => exact ⟨_, rfl, hopened⟩
  | false =>
    obtain ⟨named, compared, hsplit, hs⟩ := ((h.checked ht).2.mono h.extends_checked).surveys
    obtain ⟨s, hrun, hopened, -⟩ :=
      hs.assignments_run (D := D) ht h.arguments hsplit hfits.same_ranks
    rw [h.opening_eq ht]
    exact ⟨s, hrun, hopened⟩

/-- The valuations that a call fits are those that agree with the names it gave. -/
theorem Opened.fits_iff (ht : t₀.Sound) (harg : t₀.arguments = .ok arguments) {m : Memory V}
    (h : Opened t₀ arguments call m) (hfits : ∃ σ, call.Fits (declaredShapes t₀ arguments) σ)
    {σ : String → Int} : call.Fits (declaredShapes t₀ arguments) σ ↔
      ∀ name, t₀.Sizes name → m.number name = some (σ name) := by
  constructor
  · intro hσ name hn
    exact h.number hσ hn
  · intro hnumber
    obtain ⟨τ, hτ⟩ := hfits
    have hranks := hτ.same_ranks
    refine Call.fits_iff.2 ⟨hranks, fun a ha => ?_⟩
    rw [axis_element ht harg hnumber ha, (h.exists_fits_iff ht harg hranks).1 ⟨τ, hτ⟩ a ha]

end

end LoopNest

open LoopNest

/-- **The guards accept exactly the arguments that conform.** The opening of a function is never
stuck. It is done exactly if the arguments have their declared shapes, and the guard of the expression
is true, under some valuation of the lengths, and the valuations that give the arguments their shapes
are then those that agree with the names that are bound. Else it stops because of a rank, because of
the shapes, or because of the guard. -/
theorem Context.lower_decides {source : String} {limit : Nat} {c s r f : Context}
    (hc : Context.parse source = .ok c) (hs : c.inferShapes = .ok s) (hr : s.reduce limit = .ok r)
    (hf : r.lower true = .ok f) {V : Type} (D : Domain V) (call : Call V) :
    let arguments := parameters f.tree
    let declared := declaredShapes r.table arguments
    let domain σ := r.guardTest (.ofValuation (call.valuation arguments σ))
    let run := execAll D f.table (opening f.tree) (call.start arguments)
    run ≠ .stuck ∧
    ((∃ store, run = .done store) ↔ ∃ σ, call.Fits declared σ ∧ domain σ = some true) ∧
    (∀ store, run = .done store →
      (∀ σ, call.Fits declared σ ↔
        ∀ name, r.table.Sizes name → store.memory.number name = some (σ name)) ∧
      ∀ name, ¬ r.table.Sizes name →
        store.memory.number name = (call.memory arguments).number name) ∧
    (run = .raised .dimension ↔ ¬ call.SameRanks declared) ∧
    (run = .raised .shape ↔ call.SameRanks declared ∧ ¬ ∃ σ, call.Fits declared σ) ∧
    (run = .raised .incompatibleShape ↔ ∃ σ, call.Fits declared σ ∧ domain σ = some false) := by
  obtain ⟨shape, hred⟩ := Context.reduce_ok (Context.parse_raw hc) hs hr
  obtain ⟨p, hp⟩ := lower_ok hred.condition hf
  obtain ⟨ds, hguards, hds⟩ := hred.guards
  have hparameters : parameters f.tree = p.arguments := by rw [hp.tree]; rfl
  have hdecides := hp.decides hred.sound hguards hds D call
  have harguments := hp.arguments
  rw [← hparameters] at hdecides harguments
  intro arguments declared domain run
  change Decides r arguments call run at hdecides
  clear_value run
  cases hdecides with
  | dimension hranks =>
    have hno : ∀ σ, ¬ call.Fits declared σ := fun σ hσ => hranks hσ.same_ranks
    simp [hno, declared, hranks]
  | shape hranks hno =>
    have hno' : ∀ σ, ¬ call.Fits declared σ := fun σ hσ => hno ⟨σ, hσ⟩
    simp [hno', declared, hranks]
  | domain hfits hdomain =>
    obtain ⟨σ, hσ⟩ := hfits
    have htrue : ∀ τ, ¬ (call.Fits declared τ ∧ domain τ = some true) := by
      rintro τ ⟨hτ, htest⟩
      cases (hdomain τ hτ).symm.trans htest
    have hfalse : ∃ τ, call.Fits declared τ ∧ domain τ = some false := ⟨σ, hσ, hdomain σ hσ⟩
    have hex : ∃ τ, call.Fits declared τ := ⟨σ, hσ⟩
    simp [htrue, hfalse, hex, declared, hσ.same_ranks]
  | @done store hfits hdomain hopened =>
    obtain ⟨σ, hσ⟩ := hfits
    have hfalse : ∀ τ, ¬ (call.Fits declared τ ∧ domain τ = some false) := by
      rintro τ ⟨hτ, htest⟩
      cases (hdomain τ hτ).symm.trans htest
    refine ⟨by simp, ⟨fun _ => ⟨σ, hσ, hdomain σ hσ⟩, fun _ => ⟨store, rfl⟩⟩, ?_, ?_, ?_, ?_⟩
    · rintro _ hstore
      cases hstore
      exact ⟨fun τ => hopened.fits_iff hred.sound harguments ⟨σ, hσ⟩,
        fun name hn => (hopened.kept name hn).1⟩
    · simp [declared, hσ.same_ranks]
    · simp [show ∃ τ, call.Fits declared τ from ⟨σ, hσ⟩]
    · simp [hfalse]

/-- A run of the stages up to the lowering that is done, with what each stage gave. -/
theorem Context.exists_lowered {α : Type} {source : String} {limit : Nat} {guards : Bool}
    {rest : Context → Context → Context → Context → Except Error α} {a : α}
    (h : (do
      let c ← Context.parse source
      let s ← c.inferShapes
      let r ← s.reduce limit
      let f ← r.lower guards
      rest c s r f) = .ok a) :
    ∃ c s r f, Context.parse source = .ok c ∧ c.inferShapes = .ok s ∧ s.reduce limit = .ok r ∧
      r.lower guards = .ok f ∧ rest c s r f = .ok a := by
  obtain ⟨c, hc, h⟩ := except_bind_ok.1 h
  obtain ⟨s, hs, h⟩ := except_bind_ok.1 h
  obtain ⟨r, hr, h⟩ := except_bind_ok.1 h
  obtain ⟨f, hf, h⟩ := except_bind_ok.1 h
  exact ⟨c, s, r, f, hc, hs, hr, hf, h⟩

/-- The sum of two matrices with symbolic numbers of rows: it takes two rows and two, but not two and
four. -/
theorem Context.lower_decides_sum : ∃ c s r f,
    Context.parse "A^<n 3> + B^<m 3>" = .ok c ∧ c.inferShapes = .ok s ∧ s.reduce 100 = .ok r ∧
    r.lower true = .ok f ∧
    let run (rows : Int) := execAll .integers f.table (opening f.tree) (Call.start
      ⟨fun name => .ofFn [if name = "A" then 2 else rows, 3] fun _ => 0, fun _ => 0⟩
      (parameters f.tree))
    (∃ store, run 2 = .done store) ∧ run 4 = .raised .incompatibleShape := by
  let call (rows : Int) : Call Int :=
    ⟨fun name => .ofFn [if name = "A" then 2 else rows, 3] fun _ => 0, fun _ => 0⟩
  let σ (rows : Int) : String → Int := fun name => if name = "n" then 2 else rows
  have hrun : (do
      let c ← Context.parse "A^<n 3> + B^<m 3>"
      let s ← c.inferShapes
      let r ← s.reduce 100
      let f ← r.lower true
      let verdict (rows : Int) := (decide ((call rows).Fits (declaredShapes r.table
        (parameters f.tree)) (σ rows)), r.guardTest (.ofValuation
          ((call rows).valuation (parameters f.tree) (σ rows))))
      return (verdict 2, verdict 4)) = .ok ((true, some true), (true, some false)) := by
    decide +kernel
  obtain ⟨c, s, r, f, hc, hs, hr, hf, hrun⟩ := exists_lowered hrun
  simp only [pure, Except.pure, Except.ok.injEq, Prod.mk.injEq, decide_eq_true_eq] at hrun
  obtain ⟨⟨hfits₂, htrue⟩, hfits₄, hfalse⟩ := hrun
  refine ⟨c, s, r, f, hc, hs, hr, hf, ?_, ?_⟩
  · exact (lower_decides hc hs hr hf .integers (call 2)).2.1.2 ⟨σ 2, hfits₂, htrue⟩
  · exact (lower_decides hc hs hr hf .integers (call 4)).2.2.2.2.2.2 ⟨σ 4, hfits₄, hfalse⟩

end PsiCalculus
