import PsiCalculus.Proofs.LoopNest.Opening

/-!
# What loop nests compute

The loops of a function run over the index space of the result, `grid lengths`, and the assignment in
them fills the cell at the indices.

* `Fills result value names cells s s'`: from `s` to `s'` the cells of the result were written, in
  order, with their values; of the numbers only `names` changed, and nothing else did.
* `Ready m result lengths bound x rest s`: the store is the memory `m` with the indices `bound` set
  to `x` and a result of the right shape, up to the indices `rest` of the loops inside.
* `Progress result value T done s`: of the result, which was `T`, the cells `done` have their values.
* `Nested.run`: loops around a body that fills a cell fill the cells of the grid, in lexicographic
  order, so that the cells that a run of the body finds filled come before its own.
* `Valued D t m seeds shape e`: the tree `e` has a value at each multi-index of the shape.
* `Context.lower_computes`: a function computes the reduced expression, if it has its values.
-/

namespace PsiCalculus

open SymbolTable

namespace LoopNest

/-! ## The index space -/

/-- The multi-indices of an array, the last place fastest. -/
def grid : List Int → List (List Int)
  | [] => [[]]
  | n :: lengths => (steps 0 n 1).flatMap fun i => (grid lengths).map (i :: ·)

theorem mem_grid : ∀ {lengths x : List Int}, x ∈ grid lengths ↔ InRange x lengths
  | [], x => by simp [grid, InRange]
  | n :: lengths, x => by
    simp only [grid, List.mem_flatMap, List.mem_map, mem_grid, mem_steps_unit]
    constructor
    · rintro ⟨i, hi, y, hy, rfl⟩
      exact .cons hi hy
    · intro hx
      cases hx with
      | cons hi hy => exact ⟨_, hi, _, hy, rfl⟩

section
variable {V : Type} {result : String} {value : List Int → Option V} {names : List String}

/-- From `s` to `s'` the cells of the result were written, and of the numbers only `names` changed. -/
structure Fills (result : String) (value : List Int → Option V) (names : List String)
    (cells : List (List Int)) (s s' : Store V) : Prop where
  writes : s'.writes = s.writes ++ cells.map (result, ·)
  numbers : ∀ name, name ∉ names → s'.memory.number name = s.memory.number name
  arrays : ∀ name, name ≠ result → s'.memory.array name = s.memory.array name
  target : ∀ T, s.memory.array result = some T → ∃ T', s'.memory.array result = some T' ∧
    T'.shape = T.shape ∧ ∀ x, T'.cell x = if x ∈ cells then value x else T.cell x

namespace Fills

variable {cells cells' : List (List Int)} {s s₁ s₂ : Store V}

theorem refl (names : List String) (s : Store V) : Fills result value names [] s s :=
  ⟨by simp, fun _ _ => rfl, fun _ _ => rfl, fun T hT => ⟨T, hT, rfl, by simp⟩⟩

theorem trans (h₁ : Fills result value names cells s s₁) (h₂ : Fills result value names cells' s₁ s₂) :
    Fills result value names (cells ++ cells') s s₂ := by
  refine ⟨?_, fun name hn => ?_, fun name hn => ?_, fun T hT => ?_⟩
  · rw [h₂.writes, h₁.writes, List.map_append, List.append_assoc]
  · rw [h₂.numbers name hn, h₁.numbers name hn]
  · rw [h₂.arrays name hn, h₁.arrays name hn]
  · obtain ⟨T₁, hT₁, hshape₁, hcell₁⟩ := h₁.target T hT
    obtain ⟨T₂, hT₂, hshape₂, hcell₂⟩ := h₂.target T₁ hT₁
    refine ⟨T₂, hT₂, hshape₂.trans hshape₁, fun x => ?_⟩
    rw [hcell₂, hcell₁]
    by_cases hx : x ∈ cells <;> by_cases hx' : x ∈ cells' <;> simp [hx, hx']

theorem mono (h : Fills result value names cells s s₁) (name : String) :
    Fills result value (name :: names) cells s s₁ :=
  ⟨h.writes, fun other ho => h.numbers other fun hmem => ho (.tail _ hmem), h.arrays, h.target⟩

theorem bind (name : String) (i : Int) (s : Store V) :
    Fills result value (name :: names) [] s (s.bind name i) := by
  refine ⟨by simp [Store.bind], fun other ho => ?_, fun _ _ => rfl, fun T hT => ⟨T, hT, rfl, by simp⟩⟩
  exact Memory.bind_other s.memory i fun heq => ho (heq ▸ .head _)

end Fills

/-- The cells `done` of the result have their values, and the others are still those of `T`. -/
structure Progress (result : String) (value : List Int → Option V) (T : Tensor V)
    (done : List (List Int)) (s : Store V) : Prop where
  target : ∃ T', s.memory.array result = some T' ∧ T'.shape = T.shape ∧
    ∀ x, T'.cell x = if x ∈ done then value x else T.cell x

theorem Progress.start {T : Tensor V} {s : Store V} (hT : s.memory.array result = some T) :
    Progress result value T [] s := ⟨T, hT, rfl, by simp⟩

theorem Progress.fills {T : Tensor V} {done cells : List (List Int)} {s s' : Store V}
    (h : Progress result value T done s) (hf : Fills result value names cells s s') :
    Progress result value T (done ++ cells) s' := by
  obtain ⟨T₁, hT₁, hshape₁, hcell₁⟩ := h.target
  obtain ⟨T₂, hT₂, hshape₂, hcell₂⟩ := hf.target T₁ hT₁
  refine ⟨T₂, hT₂, hshape₂.trans hshape₁, fun x => ?_⟩
  rw [hcell₂, hcell₁]
  by_cases hx : x ∈ done <;> by_cases hx' : x ∈ cells <;> simp [hx, hx']

/-- Runs that each fill their cells, after those of smaller integers, fill all of them one after the
other. -/
theorem iterate_fills {P : List (List Int) → Store V → Prop}
    {run : Int → Store V → Outcome (Store V)} {cells : Int → List (List Int)}
    (hkeep : ∀ {done s s' cs}, P done s → Fills result value names cs s s' → P (done ++ cs) s') :
    ∀ {is : List Int} {done : List (List Int)} {s : Store V}, is.Pairwise (· < ·) →
      (∀ i ∈ is, ∀ done' s, (∀ y ∈ done', y ∈ done ∨ ∃ j < i, y ∈ cells j) → P done' s →
        ∃ s', run i s = .done s' ∧ Fills result value names (cells i) s s') →
      P done s → ∃ s', iterate run is s = .done s' ∧ Fills result value names (is.flatMap cells) s s'
  | [], _, s, _, _, _ => ⟨s, rfl, .refl _ s⟩
  | i :: is, done, s, hsorted, hrun, hs => by
    obtain ⟨hlt, hsorted⟩ := List.pairwise_cons.1 hsorted
    obtain ⟨s₁, hrun₁, hfills₁⟩ := hrun i (.head _) done s (fun y hy => .inl hy) hs
    have hrest : ∀ j ∈ is, ∀ done' s,
        (∀ y ∈ done', y ∈ done ++ cells i ∨ ∃ k < j, y ∈ cells k) → P done' s →
        ∃ s', run j s = .done s' ∧ Fills result value names (cells j) s s' := by
      intro j hj done' s hdone hs
      refine hrun j (.tail _ hj) done' s (fun y hy => ?_) hs
      rcases hdone y hy with hy | hy
      · exact (List.mem_append.1 hy).imp_right fun hy => ⟨i, hlt j hj, hy⟩
      · exact .inr hy
    obtain ⟨s₂, hrun₂, hfills₂⟩ := iterate_fills hkeep hsorted hrest (hkeep hs hfills₁)
    refine ⟨s₂, ?_, hfills₁.trans hfills₂⟩
    rw [iterate, hrun₁]
    exact hrun₂

end

/-! ## The loops -/

section
variable {V : Type} {D : Domain V} {t : SymbolTable} {m : Memory V} {result : String}
  {lengths : List Int} {value : List Int → Option V}

/-- The memory `m`, with the indices `bound` set to `x` and the indices `rest` to anything, and with a
result of the right shape. -/
structure Ready (m : Memory V) (result : String) (lengths : List Int) (bound : List String)
    (x : List Int) (rest : List String) (s : Store V) : Prop where
  numbers : ∀ name, name ∉ rest → s.memory.number name = (m.bindAll bound x).number name
  arrays : ∀ name, name ≠ result → s.memory.array name = m.array name
  target : ∃ T, s.memory.array result = some T ∧ T.shape = lengths

namespace Ready

variable {bound rest : List String} {x : List Int} {s s' : Store V}

theorem fills (h : Ready m result lengths bound x rest s) {cells : List (List Int)}
    (hf : Fills result value rest cells s s') : Ready m result lengths bound x rest s' := by
  refine ⟨fun name hn => ?_, fun name hn => ?_, ?_⟩
  · rw [hf.numbers name hn, h.numbers name hn]
  · rw [hf.arrays name hn, h.arrays name hn]
  · obtain ⟨T, hT, hshape⟩ := h.target
    obtain ⟨T', hT', hshape', -⟩ := hf.target T hT
    exact ⟨T', hT', hshape'.trans hshape⟩

theorem bind {index : String} (h : Ready m result lengths bound x (index :: rest) s)
    (hlen : bound.length = x.length) (i : Int) :
    Ready m result lengths (bound ++ [index]) (x ++ [i]) rest (s.bind index i) := by
  refine ⟨fun name hn => ?_, h.arrays, h.target⟩
  rw [Memory.bindAll_concat index i m hlen]
  by_cases heq : name = index
  · subst heq
    rw [Store.bind, Memory.bind_self, Memory.bind_self]
  · rw [Store.bind, Memory.bind_other _ i heq, Memory.bind_other _ i heq]
    exact h.numbers name (by simp [heq, hn])

end Ready

/-- The index runs from zero up to `n`: an integer, or the number of a name that is no index. -/
def Bounded (t : SymbolTable) (m : Memory V) (indices : List String) (index : String) (n : Int) :
    Prop :=
  ∃ limit, t.get? index = some (.index limit) ∧
    (limit = .int n ∨ ∃ name, limit = .named name ∧ name ∉ indices ∧ m.number name = some n)

theorem Bounded.loopRange {bound rest : List String} {index : String} {n : Int}
    (h : Bounded t m (bound ++ rest) index n) {x : List Int} {s : Store V}
    (hs : Ready m result lengths bound x rest s) {symbol : Symbol} {start stop step : Element}
    (hsymbol : t.get? index = some symbol) (hvalue : symbol.value = some [start, stop, step]) :
    loopRange s.memory.env start stop step = some (steps 0 n 1) := by
  obtain ⟨limit, hlimit, hn⟩ := h
  cases hsymbol.symm.trans hlimit
  cases hvalue
  have hstop : s.memory.env.element stop = some n := by
    rcases hn with rfl | ⟨name, rfl, hname, hnumber⟩
    · rfl
    · rw [List.mem_append, not_or] at hname
      rw [Env.element_named, Memory.env_number, hs.numbers name hname.2,
        Memory.bindAll_other hname.1, hnumber]
  simp [LoopNest.loopRange, hstop]

theorem steps_sorted (n : Int) : (steps 0 n 1).Pairwise (· < ·) := by
  rw [steps_unit, List.pairwise_map]
  exact List.pairwise_lt_range.imp fun h => Int.ofNat_lt.2 h

/-- **Loops fill the grid** if their body fills a cell, given that earlier cells are filled. -/
theorem Nested.run {shape : Shape} {body : Expr} {indices : List String} {T : Tensor V}
    (hbody : ∀ x done s, InRange x lengths → (∀ y ∈ done, y < x) →
      Ready m result lengths indices x [] s → Progress result value T done s →
      ∃ s', exec D t body s = .done s' ∧ Fills result value [] [x] s s')
    {rest : List String} {nest : Expr} (h : Nested t shape body rest nest) :
    ∀ {bound : List String} {x ns ns' : List Int} {done : List (List Int)} {s : Store V},
      indices = bound ++ rest → lengths = ns ++ ns' → InRange x ns → bound.length = x.length →
      List.Forall₂ (Bounded t m indices) rest ns' →
      (∀ y ∈ done, ∀ z, InRange z ns' → y < x ++ z) →
      Ready m result lengths bound x rest s → Progress result value T done s →
      ∃ s', exec D t nest s = .done s' ∧
        Fills result value rest ((grid ns').map (x ++ ·)) s s' := by
  induction h with
  | nil =>
    intro bound x ns ns' done s hindices hlengths hx _ hbounds hdone hs hp
    cases hbounds
    rw [List.append_nil] at hindices hlengths
    subst hindices hlengths
    simpa [grid] using hbody x done s hx (fun y hy => by simpa using hdone y hy [] .nil) hs hp
  | @cons index rest symbol start stop step inner hsymbol hvalue hinner ih =>
    intro bound x ns ns' done s hindices hlengths hx hlen hbounds hdone hs hp
    cases hbounds with
    | @cons _ n _ ns' hbound hbounds =>
      have hbound' : Bounded t m (bound ++ index :: rest) index n := hindices ▸ hbound
      rw [exec, hbound'.loopRange hs hsymbol hvalue, grid, List.map_flatMap]
      refine iterate_fills (P := fun done s => Ready m result lengths bound x (index :: rest) s ∧
          Progress result value T done s) (fun hs hf => ⟨hs.1.fills hf, hs.2.fills hf⟩)
        (steps_sorted n) (fun i hi done' s hdone' hs => ?_) ⟨hs, hp⟩
      have hindices' : indices = (bound ++ [index]) ++ rest := by simp [hindices]
      have hlengths' : lengths = (ns ++ [n]) ++ ns' := by simp [hlengths]
      have hi' := mem_steps_unit.1 hi
      have hx' : InRange (x ++ [i]) (ns ++ [n]) := hx.append (.cons hi' .nil)
      -- what is filled by now was filled before the loop, or for a smaller index
      have hbefore : ∀ y ∈ done', ∀ z, InRange z ns' → y < (x ++ [i]) ++ z := by
        intro y hy z hz
        rw [List.append_assoc, List.singleton_append]
        rcases hdone' y hy with hy | ⟨j, hj, hy⟩
        · exact hdone y hy (i :: z) (.cons hi' hz)
        · simp only [List.map_map, List.mem_map, Function.comp_apply] at hy
          obtain ⟨w, -, rfl⟩ := hy
          exact List.append_left_lt (List.cons_lt_cons_iff.2 (.inl hj))
      have hp' : Progress result value T done' (s.bind index i) := ⟨hs.2.target⟩
      obtain ⟨s', hrun, hfills⟩ := ih hindices' hlengths' hx' (by simp [hlen]) hbounds hbefore
        (hs.1.bind hlen i) hp'
      refine ⟨s', by rw [execAll_singleton, hrun], ?_⟩
      simpa [Function.comp_def] using (Fills.bind index i s).trans (hfills.mono index)

end

/-! ## The assignment -/

section
variable {V : Type} {D : Domain V} {t₀ t t' : SymbolTable} {m : Memory V} {result : String}
  {lengths : List Int}

theorem write_fills {s : Store V} {T : Tensor V} (hT : s.memory.array result = some T) {x : List Int}
    (hx : InRange x T.shape) (value : List Int → Option V) {v : V} (hv : value x = some v) :
    ∃ s', s.write result x v = some s' ∧ Fills result value [] [x] s s' := by
  have hwrite : s.write result x v = some
      { memory := { s.memory with
          array := fun n => if n = result then some (T.set x v hx) else s.memory.array n }
        writes := s.writes ++ [(result, x)] } := by
    simp [Store.write, hT, hx]
  refine ⟨_, hwrite, rfl, fun _ _ => rfl, fun name hn => if_neg hn, fun U hU => ?_⟩
  cases hT.symm.trans hU
  refine ⟨T.set x v hx, if_pos rfl, rfl, fun y => ?_⟩
  by_cases hy : y = x
  · simp [Tensor.set, hy, hv]
  · simp [Tensor.set, hy]

theorem Ready.agrees {indices : List String} {x : List Int} {s : Store V}
    (h : Ready m result lengths indices x [] s) (hr : result ∉ t.names) :
    (m.bindAll indices x).Agrees t s.memory := by
  refine ⟨funext fun name => h.numbers name List.not_mem_nil, fun name hn => ?_⟩
  rw [Memory.bindAll_array]
  exact h.arrays name fun heq => hr (heq ▸ hn)

/-- The assignment stores the value of the expression at the indices, if there is one. -/
theorem Stores.run {shape : Shape} {indices : List String} {e body : Expr} {allocation : List Expr}
    (h : Stores t shape indices e result allocation body t') (hx : Extends t₀ t) (he : e.Known t₀)
    (hnodup : indices.Nodup) (hlen : indices.length = lengths.length) {x : List Int} {s : Store V}
    (hxr : InRange x lengths) (hs : Ready m result lengths indices x [] s)
    (hvalued : (eval D t₀ (m.bindAll indices x) e).isSome) :
    ∃ s', exec D t' body s = .done s' ∧
      Fills result (fun y => eval D t₀ (m.bindAll indices y) e) [] [x] s s' := by
  obtain ⟨v, a, t₁, hresult, hvector, rfl⟩ := h.exists_vector
  have hfresh : result ∉ t₀.names := fun hmem => get?_eq_none_iff.1 hresult.fresh (hx.mem_names hmem)
  have hagrees := hs.agrees hfresh
  have hindex : s.memory.env.elements (indices.map .named) = some x := by
    rw [hagrees.elements]
    exact Memory.bindAll_elements hnodup (hlen.trans hxr.length_eq.symm)
  have hvalue : eval D t' s.memory e = eval D t₀ (m.bindAll indices x) e := by
    rw [eval_extends (hx.trans h.extends_table) _ e he, eval_congr hagrees e he]
  obtain ⟨T, hT, rfl⟩ := hs.target
  obtain ⟨w, hw⟩ := Option.isSome_iff_exists.1 hvalued
  obtain ⟨s', hwrite, hfills⟩ :=
    write_fills hT hxr (fun y => eval D t₀ (m.bindAll indices y) e) hw
  refine ⟨s', ?_, hfills⟩
  rw [Expr.binary, exec, assign_element, valueOf_literal (.refl _) hvector.get?_self,
    Option.bind_some, hindex, Option.bind_some, hvalue, hw, Option.bind_some, hwrite,
    Outcome.ofOption]

end

/-! ## The function -/

/-- The tree has a value at each multi-index of the shape, with the indices `seeds` set to it. It has
none where it folds over nothing, or reads a cell that an array does not have. -/
def Valued {V : Type} (D : Domain V) (t : SymbolTable) (m : Memory V) (seeds : List String)
    (shape : Option Shape) (e : Expr) : Prop :=
  ∀ lengths x, shape.bind m.env.elements = some lengths → InRange x lengths →
    (eval D t (m.bindAll seeds x) e).isSome

theorem valued_iff {V : Type} {D : Domain V} {t : SymbolTable} {m : Memory V} {seeds : List String}
    {shape : Option Shape} {e : Expr} : Valued D t m seeds shape e ↔
      ∀ lengths ∈ shape.bind m.env.elements, ∀ x ∈ grid lengths,
        (eval D t (m.bindAll seeds x) e).isSome := by
  simp only [Valued, mem_grid, Option.mem_def]
  exact ⟨fun h lengths hl x hx => h lengths x hl hx, fun h lengths x hl hx => h lengths hl x hx⟩

instance {V : Type} (D : Domain V) (t : SymbolTable) (m : Memory V) (seeds : List String)
    (shape : Option Shape) (e : Expr) : Decidable (Valued D t m seeds shape e) :=
  decidable_of_iff _ valued_iff.symm

/-- The array that a function computes. -/
def output : Expr → String
  | .node .function _ (.function _ result) _ => result
  | _ => ""

section
variable {V : Type} {D : Domain V} {s r f : Context} {shape : Shape} {guards : Bool} {p : Parts}

/-- After the opening the lengths of the root are known, and they bound the indices. -/
theorem Lowers.lengths (h : Lowers guards r p f) (hred : s.Reduced r shape) {start opened : Store V}
    (hopen : execAll D f.table (opening f.tree) start = .done opened) :
    ∃ lengths, opened.memory.env.elements shape = some lengths ∧
      List.Forall₂ (Bounded f.table opened.memory s.seeds) s.seeds lengths := by
  obtain ⟨named, hsizes, hnamed⟩ := h.named hred.sound hopen
  have hx : Extends r.table f.table := (h.checked hred.sound).1.grows.entries.trans h.extends_checked
  have hlength : ∀ x ∈ shape, (∃ n, x = .int n) ∨ ∃ name, x = .named name ∧
      isGenerated name = false ∧ (opened.memory.number name).isSome := by
    intro x hmem
    rcases hred.lengths x hmem with hint | ⟨array, symbol, lengths, hs, hl, hxl⟩
    · exact .inl hint
    · refine (hred.sound.int_or_sizes hs hl hxl).imp_right ?_
      rintro ⟨name, rfl, hn⟩
      obtain ⟨a, ha, hlen⟩ := (hsizes name).1 hn
      obtain ⟨hsome, hnumber⟩ := hnamed.number a ha name hlen
      have hu := ((hred.sound.shape_element hs hl _ hxl).named_of_name rfl).2.1
      exact ⟨name, rfl, hu, hnumber ▸ hsome⟩
  refine ⟨_, Env.elements_eq fun x hmem => ?_, ?_⟩
  · obtain ⟨n, rfl⟩ | ⟨name, rfl, -, hsome⟩ := hlength x hmem
    · rfl
    · exact hsome
  · refine List.forall₂_map_right_iff.2 (List.forall₂_iff_zip.2 ⟨hred.seeds.length_eq, ?_⟩)
    intro index limit hmem
    have hindex := (List.forall₂_iff_zip.1 hred.seeds).2 hmem
    refine ⟨limit, hx.get? hindex, ?_⟩
    obtain ⟨n, rfl⟩ | ⟨name, rfl, hu, hsome⟩ := hlength limit (List.of_mem_zip hmem).2
    · exact .inl rfl
    · refine .inr ⟨name, rfl, fun hseed => ?_, ?_⟩
      · rw [hred.seeds_generated hseed] at hu
        cases hu
      · obtain ⟨n, hn⟩ := Option.isSome_iff_exists.1 hsome
        simp [Env.value, hn]

/-- The allocation and the loops after the opening fill the result, if the expression has its values. -/
theorem Lowers.fills (h : Lowers guards r p f) (hred : s.Reduced r shape)
    (hop : r.consequent.op ≠ .assign) {start opened : Store V}
    (hopen : execAll D f.table (opening f.tree) start = .done opened) {lengths : List Int}
    (hlengths : opened.memory.env.elements shape = some lengths)
    (hbounds : List.Forall₂ (Bounded f.table opened.memory s.seeds) s.seeds lengths)
    (hvalued : Valued D r.table opened.memory s.seeds (some shape) r.consequent) :
    ∃ store, execAll D f.table f.tree.children start = .done store ∧
      Fills p.result (fun x => eval D r.table (opened.memory.bindAll s.seeds x) r.consequent) s.seeds
        (grid lengths) (opened.allocate D p.result lengths) store := by
  obtain ⟨hgrows, -⟩ := h.checked hred.sound
  obtain rfl : p.shape = shape := Option.some.inj (h.shape.symm.trans hred.root)
  have hindices : p.indices = s.seeds := hred.free hgrows h.indices
  obtain ⟨htable, hnested⟩ := loops_ok h.nest
  cases h.target with
  | own hassign => exact absurd hassign hop
  | fresh _ hstore =>
    have hstores := store_ok hstore
    rw [← htable] at hstores hnested
    rw [hindices] at hstores hnested
    have hready : Ready opened.memory p.result lengths [] [] s.seeds
        (opened.allocate D p.result lengths) :=
      ⟨fun _ _ => rfl, fun _ hn => if_neg hn, _, if_pos rfl, rfl⟩
    obtain ⟨store, hrun, hfills⟩ := hnested.run (D := D) (fun x _ s' hx _ hs' _ =>
      hstores.run hgrows.grows.entries hred.known hred.nodup hbounds.length_eq hx hs'
        (hvalued lengths x hlengths hx))
      rfl rfl .nil rfl hbounds (by simp) hready (Progress.start (if_pos rfl))
    refine ⟨store, ?_, by simpa using hfills⟩
    rw [h.opening_eq hred.sound] at hopen
    rw [h.tree, Expr.children_node, execAll_singleton, exec, execAll_append, execAll_append, hopen,
      hstores.allocation, Outcome.andThen, execAll_singleton, exec, hlengths, Option.map_some,
      Outcome.ofOption, Outcome.andThen, execAll_singleton]
    exact hrun

end

end LoopNest

open LoopNest

end PsiCalculus
