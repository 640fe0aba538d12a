import PsiCalculus.LoopNest
import PsiCalculus.Proofs.Tensor.Meaning

/-!
# Running functions

A machine for the statements that functions are made of. A run ends with a store, stops at a guard,
or is stuck where it refers to something that is not there: an unbound name, an axis or a cell that an
array does not have, the first value of a fold over nothing (`Outcome`). A store has a memory and the
list of all writes to elements of arrays so far.

* `exec D t e s`: the statement `e` from the store `s`; `execAll`: statements one after the other.
* `opening f`: what the function `f` does before it allocates its result and enters its loops.
* `exec_guard`, `execAll_guardAll`: guards let a run pass exactly if their conditions are true.
-/

namespace PsiCalculus

open SymbolTable

/-- How a run ends. -/
inductive Outcome (S : Type) where
  | done (state : S)
  | raised (kind : GuardKind)
  | stuck

namespace Outcome

variable {S : Type}

/-- The second run after the first, if that is done. -/
def andThen : Outcome S → (S → Outcome S) → Outcome S
  | done s, f => f s
  | raised kind, _ => raised kind
  | stuck, _ => stuck

/-- A step that may be stuck. -/
def ofOption : Option S → Outcome S
  | some s => done s
  | none => stuck

theorem andThen_assoc (o : Outcome S) (f g : S → Outcome S) :
    (o.andThen f).andThen g = o.andThen fun s => (f s).andThen g := by
  cases o <;> rfl

theorem andThen_eq_done {o : Outcome S} {f : S → Outcome S} {s : S} :
    o.andThen f = done s ↔ ∃ s₁, o = done s₁ ∧ f s₁ = done s := by
  cases o <;> simp [andThen]

theorem andThen_done (o : Outcome S) : o.andThen done = o := by
  cases o <;> rfl

end Outcome

/-- The array with the cell at an index in its range replaced. -/
def Tensor.set {V : Type} (T : Tensor V) (x : List Int) (value : V) (h : InRange x T.shape) :
    Tensor V where
  shape := T.shape
  cell y := if y = x then some value else T.cell y
  inRange {y v} hv := by
    split at hv
    · next hy => exact hy ▸ h
    · exact T.inRange hv

/-- The memory in which `name` stands for `i`, also as a scalar. -/
def Memory.assign {V : Type} (D : Domain V) (m : Memory V) (name : String) (i : Int) : Memory V where
  number n := if n = name then some i else m.number n
  array n := if n = name then some (.scalar (D.ofInt i)) else m.array n

namespace LoopNest

/-- A memory, and the elements of arrays that were written, first to last. -/
structure Store (V : Type) where
  memory : Memory V
  writes : List (String × List Int) := []

namespace Store

variable {V : Type}

/-- The store with the array `name` of zeros. -/
def allocate (D : Domain V) (name : String) (lengths : List Int) (s : Store V) : Store V :=
  { s with memory := { s.memory with
      array := fun n => if n = name then some (.ofFn lengths fun _ => D.ofInt 0)
        else s.memory.array n } }

/-- The store after one element of an array was written. -/
def write (name : String) (x : List Int) (value : V) (s : Store V) : Option (Store V) := do
  let T ← s.memory.array name
  if h : InRange x T.shape then
    return { memory := { s.memory with
               array := fun n => if n = name then some (T.set x value h) else s.memory.array n }
             writes := s.writes ++ [(name, x)] }
  else none

/-- The store in which the index `name` is `i`. -/
def bind (s : Store V) (name : String) (i : Int) : Store V :=
  { s with memory := s.memory.bind name i }

end Store

section
variable {V : Type} (D : Domain V) (t : SymbolTable)

/-- An assignment: to a name the integer of a scalar, to an element of an array a value. There is none
where the value is undefined. -/
def assign (target value : Expr) (s : Store V) : Option (Store V) :=
  match target with
  | .node .array _ (.name name) [] => do
    return { s with memory := s.memory.assign D name (← Env.scalar t s.memory.env value) }
  | .node .psi _ _ [vector, .node .array _ (.name name) []] => do
    let x ← s.memory.env.elements (← t.valueOf vector)
    s.write name x (← eval D t s.memory value)
  | _ => none

/-- A run for each of the integers. -/
def iterate (run : Int → Store V → Outcome (Store V)) : List Int → Store V → Outcome (Store V)
  | [], s => .done s
  | i :: is, s => (run i s).andThen (iterate run is)

/-- The integers from an element on, below another, by steps. -/
def loopRange (ρ : Env) (start stop step : Element) : Option (List Int) := do
  return steps (← ρ.element start) (← ρ.element stop) (← ρ.element step)

mutual

/-- The run of a statement. -/
def exec : Expr → Store V → Outcome (Store V)
  | .node .block _ _ statements, s => execAll statements s
  | .node .branch _ _ [condition, statement], s =>
    match Env.test t s.memory.env condition with
    | some true => exec statement s
    | some false => .done s
    | none => .stuck
  | .node .raise _ (.raise kind _) _, _ => .raised kind
  | .node .allocate (some shape) (.name name) _, s =>
    .ofOption ((s.memory.env.elements shape).map fun lengths => s.allocate D name lengths)
  | .node .assign _ _ [target, value], s => .ofOption (assign D t target value s)
  | .node .loop _ (.loop index start stop step) body, s =>
    match loopRange s.memory.env start stop step with
    | some is => iterate (fun i s => execAll body (s.bind index i)) is s
    | none => .stuck
  | _, _ => .stuck
termination_by structural e => e

/-- The run of statements, one after the other. -/
def execAll : List Expr → Store V → Outcome (Store V)
  | [], s => .done s
  | e :: es, s => (exec e s).andThen (execAll es)
termination_by structural es => es

end

end

/-- The statements of a function before the allocation and the loop nest, which is the last. -/
def opening : Expr → List Expr
  | .node .function _ _ [.node .block _ _ statements] =>
    statements.dropLast.takeWhile (·.op ≠ .allocate)
  | _ => []

/-! ## Runs of statements -/

section
variable {V : Type} {D : Domain V} {t : SymbolTable}

theorem assign_scalar (name : String) (shape : Option Shape) (value : Expr) (s : Store V) :
    assign D t (.array name shape) value s = (Env.scalar t s.memory.env value).map fun i =>
      { s with memory := s.memory.assign D name i } := by
  rw [Expr.array, assign]
  cases Env.scalar t s.memory.env value <;> rfl

theorem assign_element (vector : Expr) (name : String) (shape shape' : Option Shape) (value : Expr)
    (s : Store V) : assign D t (.binary .psi shape vector (.array name shape')) value s =
      ((t.valueOf vector).bind s.memory.env.elements).bind fun x =>
        (eval D t s.memory value).bind fun v => s.write name x v := by
  rw [Expr.binary, Expr.array, assign, Option.bind_assoc]
  rfl

theorem execAll_append (es es' : List Expr) (s : Store V) :
    execAll D t (es ++ es') s = (execAll D t es s).andThen (execAll D t es') := by
  induction es generalizing s with
  | nil => simp [execAll, Outcome.andThen]
  | cons e es ih =>
    rw [List.cons_append, execAll, execAll, Outcome.andThen_assoc]
    congr 1
    funext s
    exact ih s

theorem execAll_singleton (e : Expr) (s : Store V) : execAll D t [e] s = exec D t e s := by
  rw [execAll, show execAll D t [] = Outcome.done (S := Store V) by funext s; rw [execAll],
    Outcome.andThen_done]

theorem exec_guard (kind : GuardKind) (condition : Expr) (s : Store V) :
    exec D t (guard kind condition) s = match Env.test t s.memory.env condition with
      | some true => .done s
      | some false => .raised kind
      | none => .stuck := by
  rw [guard, Expr.binary, exec, Env.test_not]
  cases Env.test t s.memory.env condition with
  | none => rfl
  | some b => cases b <;> simp [exec]

/-- A guard that lets a run pass changes nothing. -/
theorem exec_guard_done {kind : GuardKind} {condition : Expr} {s s' : Store V}
    (h : exec D t (guard kind condition) s = .done s') : s' = s := by
  rw [exec_guard] at h
  split at h <;> cases h
  rfl

theorem execAll_guards_done {kind : GuardKind} {condition? : Option Expr} {s s' : Store V}
    (h : execAll D t (condition?.map (guard kind)).toList s = .done s') : s' = s := by
  cases condition? with
  | none =>
    rw [Option.map_none, Option.toList_none, execAll] at h
    cases h
    rfl
  | some condition =>
    rw [Option.map_some, Option.toList_some, execAll_singleton] at h
    exact exec_guard_done h

/-- A conjunction is true if all conditions are. -/
theorem test_conjunction {ρ : Env} {first : Expr} {rest : List Expr}
    (h : ∀ c ∈ first :: rest, (Env.test t ρ c).isSome) :
    Env.test t ρ (rest.foldl (.binary (.logic .and) (some [])) first) =
      some (decide (∀ c ∈ first :: rest, Env.test t ρ c = some true)) := by
  induction rest generalizing first with
  | nil =>
    obtain ⟨b, hb⟩ := Option.isSome_iff_exists.1 (h first (.head _))
    cases b <;> simp [hb]
  | cons c rest ih =>
    obtain ⟨a, ha⟩ := Option.isSome_iff_exists.1 (h first (.head _))
    obtain ⟨b, hb⟩ := Option.isSome_iff_exists.1 (h c (.tail _ (.head _)))
    have hand : Env.test t ρ (.binary (.logic .and) (some []) first c) = some (a && b) := by
      rw [Env.test_and, ha, hb]
      rfl
    rw [List.foldl_cons, ih]
    · simp [hand, ha, hb, and_assoc]
    · refine List.forall_mem_cons.2 ⟨by simp [hand], fun d hd => ?_⟩
      exact h d (.tail _ (.tail _ hd))

/-- **A guard lets a run pass exactly if its conditions are true.** -/
theorem execAll_guardAll (kind : GuardKind) {conditions : List Expr} {s : Store V}
    (h : ∀ c ∈ conditions, (Env.test t s.memory.env c).isSome) :
    execAll D t (guardAll kind conditions) s =
      if ∀ c ∈ conditions, Env.test t s.memory.env c = some true then .done s
      else .raised kind := by
  cases conditions with
  | nil => simp [guardAll, Condition.conjunction, execAll]
  | cons first rest =>
    rw [guardAll, Condition.conjunction, Option.map_some, Option.toList_some, execAll_singleton,
      exec_guard, test_conjunction h]
    by_cases hall : ∀ c ∈ first :: rest, Env.test t s.memory.env c = some true
    · rw [if_pos hall, decide_eq_true hall]
    · rw [if_neg hall, decide_eq_false hall]

/-- Guards whose conditions decide something else. -/
theorem execAll_guardAll_decide (kind : GuardKind) {α : Type} {R : Expr → α → Prop} {P : α → Prop}
    [DecidablePred P] {conditions : List Expr} {as : List α} {s : Store V}
    (h : List.Forall₂ R conditions as)
    (htest : ∀ c a, a ∈ as → R c a → Env.test t s.memory.env c = some (decide (P a))) :
    execAll D t (guardAll kind conditions) s =
      if ∀ a ∈ as, P a then .done s else .raised kind := by
  have hiff : (∀ c ∈ conditions, Env.test t s.memory.env c = some true) ↔ ∀ a ∈ as, P a := by
    constructor
    · intro hall a ha
      obtain ⟨c, hc, hr⟩ := exists_of_mem_right h ha
      have := (htest c a ha hr).symm.trans (hall c hc)
      simpa using this
    · intro hall c hc
      obtain ⟨a, ha, hr⟩ := exists_of_mem_right h.flip hc
      rw [htest c a ha hr, decide_eq_true (hall a ha)]
  rw [execAll_guardAll]
  · simp only [hiff]
  · intro c hc
    obtain ⟨a, ha, hr⟩ := exists_of_mem_right h.flip hc
    rw [htest c a ha hr, Option.isSome_some]

end

end LoopNest

end PsiCalculus
