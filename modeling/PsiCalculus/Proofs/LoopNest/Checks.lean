import PsiCalculus.LoopNest
import PsiCalculus.Proofs.Numbers
import PsiCalculus.Proofs.Tensor.Axes

/-!
# The checks on the arguments

An `Axis` is an axis of an argument with the length that is declared for it. The checks take the axes
of all arguments in order: the first axis of a symbolic length gives the length its name, every other
axis is compared with what is declared.

* `Reads t e a`: the scalar `e` is the length of the axis `a` at run time; `Assigns`, `Compares`: the
  statement or condition that names or checks it.
* `Surveyed t axes checks`: the checks of the axes are split into those that are named, each name
  once, and those that are compared, whose names are all named.
* `checkArguments_ok`: the checks of the declared arguments are such.
-/

namespace PsiCalculus

open SymbolTable

namespace LoopNest

/-- An axis of an argument, and its declared length. -/
structure Axis where
  argument : String
  place : Nat
  length : Element

/-- The axes of an argument from a place on. -/
def axesFrom (argument : String) : Nat → Shape → List Axis
  | _, [] => []
  | place, length :: rest => ⟨argument, place, length⟩ :: axesFrom argument (place + 1) rest

/-- The arguments whose shapes are declared. -/
def declaredShapes (t : SymbolTable) (arguments : List String) : List (String × Shape) :=
  arguments.filterMap fun name => ((t.get? name).bind Symbol.shape).map (name, ·)

/-- The axes of arguments, in order. -/
def axesOf (arguments : List (String × Shape)) : List Axis :=
  arguments.flatMap fun (name, shape) => axesFrom name 0 shape

theorem mem_axesFrom {argument : String} {a : Axis} : ∀ {place : Nat} {shape : Shape},
    a ∈ axesFrom argument place shape ↔
      a.argument = argument ∧ place ≤ a.place ∧ shape[a.place - place]? = some a.length
  | place, [] => by simp [axesFrom]
  | place, length :: rest => by
    rw [axesFrom, List.mem_cons, mem_axesFrom]
    constructor
    · rintro (rfl | ⟨ha, hle, hget⟩)
      · simp
      · refine ⟨ha, by omega, ?_⟩
        rw [show a.place - place = (a.place - (place + 1)) + 1 by omega, List.getElem?_cons_succ]
        exact hget
    · rintro ⟨ha, hle, hget⟩
      by_cases heq : a.place = place
      · left
        rw [heq, Nat.sub_self, List.getElem?_cons_zero] at hget
        obtain ⟨argument', place', length'⟩ := a
        cases ha
        cases heq
        cases hget
        rfl
      · right
        rw [show a.place - place = (a.place - (place + 1)) + 1 by omega,
          List.getElem?_cons_succ] at hget
        exact ⟨ha, by omega, hget⟩

/-! ## What is read off an argument -/

/-- The scalar is the length of an axis of an argument. -/
inductive Reads (t : SymbolTable) : Expr → Axis → Prop
  | intro {name : String} {a : Axis} {s s₁ s₂ s₃ : Option Shape} :
      t.get? name = some (.literal [.int a.place]) →
      Reads t (.binary .psi s (.array name s₁) (.unary .shape s₂ (.array a.argument s₃))) a

/-- The condition compares the rank of an argument with that of its shape. -/
inductive RankCheck (t : SymbolTable) : Expr → String × Shape → Prop
  | intro {argument : String} {shape : Shape} {s : Option Shape} {rank : Expr} :
      Stands t rank (.int shape.length) →
      RankCheck t (equal (.unary .dim (some []) (.array argument s)) rank) (argument, shape)

/-- The statement names the length of an axis. -/
inductive Assigns (t : SymbolTable) : Expr → Axis → Prop
  | intro {a : Axis} {name : String} {length : Expr} : a.length = .named name → Reads t length a →
      Assigns t (.binary .assign (some []) (.array name (some [])) length) a

/-- The condition compares the length of an axis with the declared one. -/
inductive Compares (t : SymbolTable) : Expr → Axis → Prop
  | intro {a : Axis} {scalar length : Expr} : Stands t scalar a.length → Reads t length a →
      Compares t (equal scalar length) a

section
variable {t t' : SymbolTable}

theorem Reads.mono (h : Extends t t') {e : Expr} {a : Axis} (hr : Reads t e a) : Reads t' e a := by
  cases hr with
  | intro hs => exact .intro (h.get? hs)

theorem RankCheck.mono (h : Extends t t') {e : Expr} {p : String × Shape} (hr : RankCheck t e p) :
    RankCheck t' e p := by
  cases hr with
  | intro hs => exact .intro (hs.mono h)

theorem Assigns.mono (h : Extends t t') {e : Expr} {a : Axis} (ha : Assigns t e a) :
    Assigns t' e a := by
  cases ha with
  | intro hn hr => exact .intro hn (hr.mono h)

theorem Compares.mono (h : Extends t t') {e : Expr} {a : Axis} (hc : Compares t e a) :
    Compares t' e a := by
  cases hc with
  | intro hs hr => exact .intro (hs.mono h) (hr.mono h)

/-- The length of an axis at run time. -/
def Axis.extent (ρ : Env) (a : Axis) : Option Int := (ρ.extent a.argument).bind (·[a.place]?)

theorem Reads.scalar {e : Expr} {a : Axis} (h : Reads t e a) (ρ : Env) :
    Env.scalar t ρ e = a.extent ρ := by
  cases h with
  | @intro name a s s₁ s₂ s₃ hs =>
    rw [Expr.binary, Expr.unary, Env.scalar, Axis.extent]
    have hposition : Env.position t ρ (.array name s₁) = some (a.place : Int) := by
      simp [Env.position, Expr.arrayName?, Expr.array, Expr.name?, hs, Symbol.array]
    rw [hposition, Env.leafExtent_array]
    cases ρ.extent a.argument with
    | none => rfl
    | some shape => exact Shape.at?_natCast shape a.place

/-! ## The survey -/

/-- The axes that are named and the ones that are compared. -/
structure Surveyed (t : SymbolTable) (named compared : List Axis) (checks : Checks) : Prop where
  assignments : List.Forall₂ (Assigns t) checks.assignments named
  lengths : List.Forall₂ (Compares t) checks.lengths compared
  /-- No length is named twice. -/
  nodup : (named.map Axis.length).Nodup
  assigned : ∀ n, n ∈ checks.assigned ↔ Element.named n ∈ named.map Axis.length
  /-- What a symbolic length is compared with is named. -/
  covered : ∀ a ∈ compared, ∀ n, a.length = .named n → n ∈ checks.assigned

/-- Each of the axes is named or compared. -/
def Surveys (t : SymbolTable) (axes : List Axis) (checks : Checks) : Prop :=
  ∃ named compared, (∀ a, a ∈ axes ↔ a ∈ named ∨ a ∈ compared) ∧ Surveyed t named compared checks

theorem Surveyed.mono {named compared : List Axis} {checks : Checks} (h : Extends t t')
    (hs : Surveyed t named compared checks) : Surveyed t' named compared checks :=
  ⟨hs.assignments.imp fun _ _ ha => ha.mono h, hs.lengths.imp fun _ _ hc => hc.mono h, hs.nodup,
    hs.assigned, hs.covered⟩

theorem Surveys.nil : Surveys t [] {} := by
  refine ⟨[], [], by simp, .nil, .nil, .nil, ?_, ?_⟩
  · simp
  · simp

/-- A length that has no name yet gets one. -/
theorem Surveys.assign {axes : List Axis} {checks : Checks} {a : Axis} {name : String} {e : Expr}
    (h : Surveys t axes checks) (hn : a.length = .named name) (hnew : name ∉ checks.assigned)
    (he : Assigns t e a) : Surveys t (axes ++ [a]) { checks with
      assignments := checks.assignments ++ [e]
      assigned := name :: checks.assigned } := by
  obtain ⟨named, compared, hsplit, hs⟩ := h
  refine ⟨named ++ [a], compared, fun b => ?_, List.rel_append hs.assignments (.cons he .nil),
    hs.lengths, ?_, fun n => ?_, fun b hb n hbn => .tail _ (hs.covered b hb n hbn)⟩
  · rw [List.mem_append, List.mem_append, hsplit, or_right_comm]
  · rw [List.map_append, List.nodup_append]
    refine ⟨hs.nodup, by simp, fun x hx y hy => ?_⟩
    rw [List.map_singleton, List.mem_singleton, hn] at hy
    rintro rfl
    exact hnew ((hs.assigned name).2 (hy ▸ hx))
  · rw [List.mem_cons, hs.assigned, List.map_append, List.mem_append, List.map_singleton,
      List.mem_singleton, hn, or_comm]
    exact or_congr_right ⟨fun h => h ▸ rfl, fun h => by cases h; rfl⟩

/-- An axis whose length is an integer or has a name is compared. -/
theorem Surveys.compare {axes : List Axis} {checks : Checks} {a : Axis} {e : Expr}
    (h : Surveys t axes checks) (hn : ∀ n, a.length = .named n → n ∈ checks.assigned)
    (he : Compares t e a) :
    Surveys t (axes ++ [a]) { checks with lengths := checks.lengths ++ [e] } := by
  obtain ⟨named, compared, hsplit, hs⟩ := h
  refine ⟨named, compared ++ [a], fun b => ?_, hs.assignments,
    List.rel_append hs.lengths (.cons he .nil), hs.nodup, hs.assigned, fun b hb n hbn => ?_⟩
  · rw [List.mem_append, List.mem_append, hsplit, or_assoc]
  · rcases List.mem_append.1 hb with hb | hb
    · exact hs.covered b hb n hbn
    · rw [List.mem_singleton.1 hb] at hbn
      exact hn n hbn

theorem axisLength_ok {argument : String} {s : Option Shape} {rank place : Nat} {e : Expr}
    (h : (axisLength (.array argument s) rank place).run t = .ok (e, t')) (length : Element) :
    GrowsArrays t t' ∧ Reads t' e ⟨argument, place, length⟩ := by
  simp only [axisLength, bind_ok, pure_ok, Prod.mk.injEq] at h
  obtain ⟨v, _, hv, rfl, rfl⟩ := h
  obtain ⟨name, hg, hadds, rfl⟩ := Grow.vector_ok hv
  refine ⟨hadds.grows_arrays hg (fun _ => .vector hg fun x hx => ?_) rfl
    fun hc => Grow.array_counted hc hv, ?_⟩
  · exact .inl (.inl ⟨_, List.mem_singleton.1 hx⟩)
  · exact .intro (a := ⟨argument, place, length⟩) hadds.get?_self

/-- The checks go on from `t` to `t'`: the tables grow by arrays, and the axes are surveyed. -/
structure Continues (t t' : SymbolTable) (axes axes' : List Axis) (checks checks' : Checks) : Prop where
  grows : GrowsArrays t t'
  ranks : checks'.ranks = checks.ranks
  surveys : Surveys t axes checks → Surveys t' (axes ++ axes') checks'

theorem Surveys.mono {axes : List Axis} {checks : Checks} (h : Extends t t')
    (hs : Surveys t axes checks) : Surveys t' axes checks := by
  obtain ⟨named, compared, hsplit, hs⟩ := hs
  exact ⟨named, compared, hsplit, hs.mono h⟩

/-- The ranks are checked apart from the axes. -/
theorem Surveys.with_ranks {axes : List Axis} {checks : Checks} (hs : Surveys t axes checks)
    (ranks : List Expr) : Surveys t axes { checks with ranks } := by
  obtain ⟨named, compared, hsplit, hs⟩ := hs
  exact ⟨named, compared, hsplit, hs.assignments, hs.lengths, hs.nodup, hs.assigned, hs.covered⟩

theorem checkAxis_ok {argument : String} {s : Option Shape} {rank place : Nat}
    {checks checks' : Checks} {length : Element} (hd : t.Dimension length)
    (h : (checkAxis (.array argument s) rank place checks length).run t = .ok (checks', t'))
    (axes : List Axis) :
    Continues t t' axes [⟨argument, place, length⟩] checks checks' := by
  obtain ⟨n, rfl⟩ | ⟨name, rfl, -, hget⟩ := hd
  · simp only [checkAxis, bind_ok, pure_ok, Prod.mk.injEq] at h
    obtain ⟨e, t₁, he, expected, t₂, hexpected, rfl, rfl⟩ := h
    obtain ⟨hg₁, hreads⟩ := axisLength_ok he (.int n)
    obtain ⟨k, hk, hadds, rfl⟩ := Grow.scalar_ok hexpected
    have hg₂ := hadds.grows_arrays hk (fun _ => .constant hk) rfl
      fun hc => Grow.array_counted hc hexpected
    refine ⟨hg₁.trans hg₂, rfl, fun hs => ?_⟩
    refine (hs.mono (hg₁.grows.entries.trans hg₂.grows.entries)).compare (fun _ h => nomatch h) ?_
    exact .intro (.constant hk hadds.get?_self) (hreads.mono hg₂.grows.entries)
  · simp only [Element.named, checkAxis, bind_ok] at h
    obtain ⟨e, t₁, he, h⟩ := h
    obtain ⟨hg, hreads⟩ := axisLength_ok he (.named name)
    have hname : (Expr.array name (some [])).name?.getD "" = name := rfl
    rw [hname] at h
    split at h
    · next hmem =>
      cases pure_ok.1 h
      refine ⟨hg, rfl, fun hs => (hs.mono hg.grows.entries).compare (fun n hn => ?_) ?_⟩
      · cases hn
        exact hmem
      · exact .intro (.symbolic (hg.grows.entries.get? hget)) hreads
    · next hnew =>
      cases pure_ok.1 h
      exact ⟨hg, rfl, fun hs => (hs.mono hg.grows.entries).assign rfl hnew (.intro rfl hreads)⟩

theorem Continues.trans {t₁ t₂ : SymbolTable} {axes axes₁ axes₂ : List Axis}
    {checks checks₁ checks₂ : Checks} (h₁ : Continues t t₁ axes axes₁ checks checks₁)
    (h₂ : Continues t₁ t₂ (axes ++ axes₁) axes₂ checks₁ checks₂) :
    Continues t t₂ axes (axes₁ ++ axes₂) checks checks₂ := by
  refine ⟨h₁.grows.trans h₂.grows, h₂.ranks.trans h₁.ranks, fun hs => ?_⟩
  rw [← List.append_assoc]
  exact h₂.surveys (h₁.surveys hs)

theorem checkAxes_ok {argument : String} {s : Option Shape} {rank : Nat} :
    ∀ {shape : Shape} {place : Nat} {checks checks' : Checks} {t t' : SymbolTable},
      (∀ x ∈ shape, t.Dimension x) →
      (checkAxes (.array argument s) rank place checks shape).run t = .ok (checks', t') →
      ∀ axes, Continues t t' axes (axesFrom argument place shape) checks checks'
  | [], place, checks, checks', t, t', _, h, axes => by
    cases pure_ok.1 h
    refine ⟨.refl _, rfl, fun hs => ?_⟩
    rwa [axesFrom, List.append_nil]
  | length :: shape, place, checks, checks', t, t', hd, h, axes => by
    obtain ⟨checks₁, t₁, h₁, h⟩ := bind_ok.1 h
    have hc₁ := checkAxis_ok (hd length (.head _)) h₁ axes
    exact hc₁.trans (checkAxes_ok (fun x hx => (hd x (.tail _ hx)).mono hc₁.grows.grows.entries) h _)

/-- The checks of arguments: their ranks, and their axes. -/
structure Checked (t : SymbolTable) (arguments : List (String × Shape)) (checks : Checks) : Prop where
  ranks : List.Forall₂ (RankCheck t) checks.ranks arguments
  surveys : Surveys t (axesOf arguments) checks

theorem Checked.mono {arguments : List (String × Shape)} {checks : Checks} (h : Extends t t')
    (hc : Checked t arguments checks) : Checked t' arguments checks :=
  ⟨hc.ranks.imp fun _ _ hr => hr.mono h, hc.surveys.mono h⟩

theorem checkArgument_ok (ht : t.Sound) {name : String} {checks checks' : Checks}
    (h : (checkArgument checks name).run t = .ok (checks', t'))
    {arguments : List (String × Shape)} (hc : Checked t arguments checks) :
    GrowsArrays t t' ∧ Checked t' (arguments ++ declaredShapes t [name]) checks' := by
  obtain ⟨symbol, t₀, hsymbol, hrun⟩ := bind_ok.1 h
  obtain ⟨hget, rfl⟩ := Grow.symbol_ok.1 hsymbol
  cases hshape : symbol.shape with
  | none =>
    simp only [hshape] at hrun
    cases pure_ok.1 hrun
    refine ⟨.refl _, ?_⟩
    simpa [declaredShapes, hget, hshape] using hc
  | some shape =>
    simp only [hshape, bind_ok] at hrun
    obtain ⟨rank, t₁, hrank, haxes⟩ := hrun
    obtain ⟨k, hk, hadds, rfl⟩ := Grow.scalar_ok hrank
    have hg₁ := hadds.grows_arrays hk (fun _ => .constant hk) rfl
      fun hc => Grow.array_counted hc hrank
    have hx₁ := hg₁.grows.entries
    have hd : ∀ x ∈ shape, t₁.Dimension x :=
      fun x hx => (ht.shape_element hget hshape x hx).mono hx₁
    have hc₂ := checkAxes_ok hd haxes (axesOf arguments)
    have hx₂ := hc₂.grows.grows.entries
    have hdeclared : declaredShapes t₀ [name] = [(name, shape)] := by
      simp [declaredShapes, hget, hshape]
    rw [hdeclared]
    refine ⟨hg₁.trans hc₂.grows, ?_, ?_⟩
    · rw [hc₂.ranks]
      refine List.rel_append (hc.ranks.imp fun _ _ hr => hr.mono (hx₁.trans hx₂)) (.cons ?_ .nil)
      exact .intro ((Stands.constant hk hadds.get?_self).mono hx₂)
    · have hs := hc₂.surveys ((hc.surveys.mono hx₁).with_ranks _)
      simpa [axesOf] using hs

theorem declaredShapes_extends (h : Extends t t') {names : List String}
    (hn : ∀ name ∈ names, name ∈ t.names) : declaredShapes t' names = declaredShapes t names :=
  List.filterMap_congr fun name hmem => by rw [h.get?_eq (hn name hmem)]

/-- **The arguments are checked**, each axis once. -/
theorem checkArguments_ok : ∀ {names : List String} {t t' : SymbolTable} {checks checks' : Checks}
    {arguments : List (String × Shape)}, t.Sound → (∀ name ∈ names, name ∈ t.names) →
    (checkArguments checks names).run t = .ok (checks', t') → Checked t arguments checks →
    GrowsArrays t t' ∧ Checked t' (arguments ++ declaredShapes t names) checks'
  | [], t, t', checks, checks', arguments, _, _, h, hc => by
    cases pure_ok.1 h
    refine ⟨.refl _, ?_⟩
    simpa [declaredShapes] using hc
  | name :: names, t, t', checks, checks', arguments, ht, hn, h, hc => by
    obtain ⟨checks₁, t₁, h₁, h⟩ := bind_ok.1 h
    obtain ⟨hg₁, hc₁⟩ := checkArgument_ok ht h₁ hc
    have hn' : ∀ name ∈ names, name ∈ t.names := fun name hmem => hn name (.tail _ hmem)
    obtain ⟨hg₂, hc₂⟩ := checkArguments_ok (hg₁.grows.sound ht)
      (fun name hmem => hg₁.grows.entries.mem_names (hn' name hmem)) h hc₁
    refine ⟨hg₁.trans hg₂, ?_⟩
    rw [declaredShapes_extends hg₁.grows.entries hn', List.append_assoc] at hc₂
    have hcons : declaredShapes t (name :: names) =
        declaredShapes t [name] ++ declaredShapes t names := by
      simp only [declaredShapes, ← List.filterMap_append, List.singleton_append]
    rw [hcons]
    exact hc₂

end

end LoopNest

end PsiCalculus
