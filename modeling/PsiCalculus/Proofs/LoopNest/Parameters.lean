import PsiCalculus.Proofs.LoopNest.Opening
import PsiCalculus.Proofs.NormalForm.Limit

/-!
# Parameters and lengths

A function gets every name of the user in one of two ways. A parameter is passed; any other name is the
length of an axis, and one statement of the block reads it off a parameter, before anything depends on
it.

* `LoopNest.Measures f i a`: statement `i` of the function names the length of the axis `a`.
* `LoopNest.Later`: the statements that may use a length.
* `Context.reduce_stores_element`: the assignment of a reduced expression is none that names a length,
  since it stores into an element.
* `Lowers.statements_eq`: the statements that name lengths stand together, after the checks of the
  ranks.
* `Context.lower_parameters`: each name is passed or measured, once.
-/

namespace PsiCalculus

open SymbolTable

/-! ## The order of names -/

/-- Characters are encoded in order, whatever comes after them: the encoding of one is no beginning of
that of another. -/
theorem utf8EncodeChar_lt {c d : Char} (h : c < d) (rest rest' : List UInt8) :
    String.utf8EncodeChar c ++ rest < String.utf8EncodeChar d ++ rest' := by
  have hlt : c.val.toNat < d.val.toNat := UInt32.lt_iff_toNat_lt.1 h
  have hd : d.val.toNat < 0x110000 := by
    have hvalid := d.valid
    simp only [UInt32.isValidChar, Nat.isValidChar] at hvalid
    omega
  unfold String.utf8EncodeChar
  generalize c.val.toNat = m at hlt
  generalize d.val.toNat = n at hlt hd
  dsimp only
  -- one to four bytes each
  split_ifs <;>
    simp (disch := omega) only [List.cons_append, List.nil_append, List.cons_lt_cons_iff,
      UInt8.lt_iff_toNat_lt, UInt8.toNat_ofNat', ← UInt8.toNat_inj, Nat.mod_eq_of_lt] <;>
    omega

theorem flatMap_utf8EncodeChar_lt : ∀ {cs ds : List Char}, cs < ds →
    cs.flatMap String.utf8EncodeChar < ds.flatMap String.utf8EncodeChar
  | [], d :: ds, _ => by
    obtain ⟨b, bs, hb⟩ := List.exists_cons_of_ne_nil (String.utf8EncodeChar_ne_nil (c := d))
    rw [List.flatMap_nil, List.flatMap_cons, hb]
    exact List.nil_lt_cons _ _
  | c :: cs, d :: ds, h => by
    rw [List.flatMap_cons, List.flatMap_cons]
    rcases List.cons_lt_cons_iff.1 h with hlt | ⟨rfl, hrest⟩
    · exact utf8EncodeChar_lt hlt _ _
    · exact List.append_left_lt (flatMap_utf8EncodeChar_lt hrest)

/-- The bytes of a name. -/
def nameBytes (name : String) : List UInt8 := name.toUTF8.data.toList

/-- The order of names is that of their bytes. -/
theorem nameBytes_lt {a b : String} (h : a < b) : nameBytes a < nameBytes b := by
  have hbytes : ∀ s : String, nameBytes s = s.toList.flatMap String.utf8EncodeChar := by
    intro s
    rw [nameBytes, String.toUTF8, ← String.utf8Encode_toList, List.utf8Encode,
      List.data_toByteArray]
  rw [hbytes, hbytes]
  exact flatMap_utf8EncodeChar_lt h

/-! ## What a reduced assignment stores into -/

/-- If the tree is an assignment, its target is not an array as a whole. -/
def Expr.StoresElement (e : Expr) : Prop :=
  e.op = .assign → ∀ target ∈ e.children.head?, target.op ≠ .array

/-- What rewriting keeps of the root. -/
structure KeepsTarget (c c' : Context) : Prop where
  array : c.tree.op ≠ .array → c'.tree.op ≠ .array
  condition : c.tree.op ≠ .condition → c'.tree.op ≠ .condition
  element : c.tree.StoresElement → c'.tree.StoresElement

/-- An index that was pushed down is never lost, so the target of an assignment has it. -/
theorem Pushes.root {t t' : SymbolTable} {s : Option Shape} {v X e : Expr}
    (h : Pushes t s v X e t') : e.op ≠ .array ∧ e.op ≠ .condition ∧ e.StoresElement := by
  cases h with
  | assign => simp [Expr.binary, Expr.StoresElement, Expr.children]
  | elementwise hop =>
    refine ⟨?_, ?_, ?_⟩
    · rintro rfl
      cases hop
    · rintro rfl
      cases hop
    · rintro rfl
      cases hop
  | _ => simp [Expr.binary, Expr.StoresElement]

theorem preserves_target :
    Traversal.Preserves Rule.rewrite (fun _ _ => True) (fun _ => True) KeepsTarget where
  refl _ := ⟨id, id, id⟩
  trans h₁ h₂ :=
    ⟨h₂.array ∘ h₁.array, h₂.condition ∘ h₁.condition, h₂.element ∘ h₁.element⟩
  grows _ := trivial
  mono _ _ := trivial
  step {c c'} _ h := by
    refine ⟨trivial, ?_⟩
    obtain ⟨tree, t⟩ := c
    rcases tree.psi_or_other with ⟨s, p, v, X, rfl⟩ | hother
    · rw [Rule.rewrite_pair] at h
      obtain ⟨harray, hcondition, helement⟩ := (Rule.rewrite_psi h).root
      exact ⟨fun _ => harray, fun _ => hcondition, fun _ => helement⟩
    · have hnone : Rule.find? tree = none := hother.elim Rule.find?_other Rule.find?_length
      cases (Rule.rewrite_none.2 hnone).symm.trans h
  child _ _ _ := trivial
  node {c es t} _ _ h := by
    obtain ⟨⟨op, s, p, children⟩, t₀⟩ := c
    refine ⟨id, id, fun helement hop => ?_⟩
    cases h with
    | nil => exact helement hop
    | cons hfirst =>
      rintro target ⟨⟩
      exact hfirst.array (helement hop _ rfl)

/-- **A reduced assignment stores into an element** of its target. -/
theorem Context.reduce_stores_element {c s r : Context} {limit : Nat} (hc : c.Raw)
    (hs : c.inferShapes = .ok s) (hr : s.reduce limit = .ok r) : r.consequent.StoresElement := by
  obtain ⟨e, cs, ds, hshaped⟩ := Context.inferShapes_ok hc hs
  obtain ⟨shape, u, t₁, t₂, -, hrel, -⟩ := Context.reduce_rel preserves_target
    hshaped.infers.part.op_ne_condition hshaped.wrapped hr (fun _ => trivial)
    (fun _ hrel => hrel.condition (by simp [Expr.binary]))
  exact hrel.element (by simp [Expr.StoresElement, Expr.binary])

/-! ## The statements of a function -/

namespace LoopNest

/-- The statements of the block of a function. -/
def statements : Expr → List Expr
  | .node .function _ _ [.node .block _ _ statements] => statements
  | _ => []

/-- Statement `i` of the function names the length of the axis `a`. -/
def Measures (f : Context) (i : Nat) (a : Axis) : Prop :=
  ∃ e, (statements f.tree)[i]? = some e ∧ Assigns f.table e a

/-- The statements that may use a length: the guards of the shapes and of the domain, the allocation of
the result, the loops, and the store into an element where there is no loop. -/
inductive Later : Expr → Prop
  | shape (condition : Expr) : Later (guard .shape condition)
  | domain (condition : Expr) : Later (guard .incompatibleShape condition)
  | allocation {e : Expr} : e.op = .allocate → Later e
  | loop {e : Expr} : e.op = .loop → Later e
  | store {e : Expr} : e.op = .assign → e.StoresElement → Later e

section
variable {t : SymbolTable} {e : Expr} {a b : Axis}

theorem Assigns.op (h : Assigns t e a) : e.op = .assign := by
  cases h with
  | intro => rfl

theorem Assigns.not_stores_element (h : Assigns t e a) : ¬ e.StoresElement := by
  cases h with
  | intro => exact fun helement => helement rfl _ rfl rfl

theorem Assigns.not_later (h : Assigns t e a) : ¬ Later e := by
  intro hlater
  have hop := h.op
  cases hlater with
  | shape | domain => cases hop
  | allocation hop' | loop hop' => cases hop.symm.trans hop'
  | store _ helement => exact h.not_stores_element helement

theorem Reads.unique (ha : Reads t e a) (hb : Reads t e b) :
    a.argument = b.argument ∧ a.place = b.place := by
  obtain ⟨argument, place, length⟩ := a
  obtain ⟨argument', place', length'⟩ := b
  cases ha with
  | intro hget =>
    cases hb with
    | intro hget' =>
      refine ⟨rfl, ?_⟩
      cases hget.symm.trans hget'
      rfl

/-- A statement names the length of one axis only. -/
theorem Assigns.unique (ha : Assigns t e a) (hb : Assigns t e b) : a = b := by
  obtain ⟨argument, place, length⟩ := a
  obtain ⟨argument', place', length'⟩ := b
  cases ha with
  | intro hname hreads =>
    cases hb with
    | intro hname' hreads' =>
      obtain ⟨rfl, rfl⟩ := hreads.unique hreads'
      cases hname.trans hname'.symm
      rfl

theorem not_assigns_guard {kind : GuardKind} {condition : Expr} :
    ¬ Assigns t (guard kind condition) a := by
  intro h
  cases h.op

end

namespace Lowers

variable {guards : Bool} {r f : Context} {p : Parts}

/-- The loops and the store in them name no length. -/
theorem nest_not_assigns (h : Lowers guards r p f) (hr : r.consequent.StoresElement) :
    ∀ a, ¬ Assigns f.table p.nest a := by
  intro a ha
  obtain ⟨-, hnested⟩ := loops_ok h.nest
  generalize p.indices = indices at hnested
  generalize hnest : p.nest = nest at hnested ha
  cases hnested with
  | cons => cases ha.op
  | nil =>
    cases h.target with
    | own _ _ _ hbody => exact ha.not_stores_element (hbody ▸ hr)
    | fresh _ hstore =>
      obtain ⟨v, shape, t₁, -, -, hbody⟩ := (store_ok hstore).exists_vector
      rw [hbody] at ha
      refine ha.not_stores_element fun _ target htarget => ?_
      cases htarget
      simp [Expr.binary]

/-- **The statements of a function**: checks of ranks, then the lengths get their names, then all
else. -/
theorem statements_eq (h : Lowers guards r p f) (hr : r.consequent.StoresElement) :
    ∃ before after, statements f.tree = before ++ p.checks.assignments ++ after ∧
      (∀ e ∈ before, ∃ condition, e = guard .dimension condition) ∧
      ∀ e ∈ after, ∀ a, ¬ Assigns f.table e a := by
  have hallocation : ∀ e ∈ p.allocation, ∀ a, ¬ Assigns f.table e a := by
    cases h.target with
    | own _ hnil => simp [hnil]
    | fresh _ hstore =>
      rw [(store_ok hstore).allocation]
      intro e he a ha
      cases List.mem_singleton.1 he
      cases ha.op
  have hrest : ∀ e ∈ p.allocation ++ [p.nest], ∀ a, ¬ Assigns f.table e a := by
    intro e he
    rcases List.mem_append.1 he with he | he
    · exact hallocation e he
    · exact List.mem_singleton.1 he ▸ h.nest_not_assigns hr
  have hstatements : statements f.tree =
      preamble guards p.checks r.guard? ++ (p.allocation ++ [p.nest]) := by
    rw [h.tree, statements, List.append_assoc]
  rw [hstatements]
  cases guards with
  | false => exact ⟨[], _, rfl, by simp, hrest⟩
  | true =>
    refine ⟨guardAll .dimension p.checks.ranks, guardAll .shape p.checks.lengths ++
      (r.guard?.map (guard .incompatibleShape)).toList ++ (p.allocation ++ [p.nest]), ?_,
      fun e he => exists_of_mem_guardAll he, fun e he => ?_⟩
    · simp [preamble]
    · rcases List.mem_append.1 he with he | he
      · rcases List.mem_append.1 he with he | he
        · obtain ⟨condition, rfl⟩ := exists_of_mem_guardAll he
          exact fun a => not_assigns_guard
        · obtain ⟨g, -, rfl⟩ := Option.map_eq_some_iff.1 (Option.mem_toList.1 he)
          exact fun a => not_assigns_guard
      · exact hrest e he

/-- The names of the user are those of the reduced context. -/
theorem users (h : Lowers guards r p f) (ht : r.table.Sound) {name : String}
    (hn : isGenerated name = false) : f.table.get? name = r.table.get? name := by
  obtain ⟨htable, -⟩ := loops_ok h.nest
  rw [htable, ← (h.checked ht).1.grows.users name hn]
  cases h.target with
  | own _ _ hstored => rw [hstored]
  | fresh _ hstore =>
    simp only [store, bind_ok, pure_ok, Prod.mk.injEq] at hstore
    obtain ⟨_, t₁, hresult, vector, _, hvector, -, rfl⟩ := hstore
    obtain ⟨hr, haddsr⟩ := Grow.fresh_ok hresult
    obtain ⟨v, hv, haddsv, -⟩ := Grow.vector_ok hvector
    rw [haddsv.get?_other (fun heq => by simp [heq, hv] at hn),
      haddsr.get?_other (fun heq => by simp [heq, hr] at hn)]

end Lowers

/-! ## The places of the names -/

/-- The lengths that get names: the axes they are read off, one statement each from place `skip` on, and
what may use a length comes afterwards. -/
structure Measured (r f : Context) (arguments : List String) (skip : Nat) (named : List Axis) :
    Prop where
  measures : ∀ {i a}, Measures f i a ↔ ∃ k, i = skip + k ∧ named[k]? = some a
  /-- No length is read off twice. -/
  nodup : (named.map Axis.length).Nodup
  axes : ∀ a ∈ named, a ∈ axesOf (declaredShapes r.table arguments)
  sizes : ∀ name, r.table.Sizes name ↔ ∃ a ∈ named, a.length = .named name
  later : ∀ {j e}, (statements f.tree)[j]? = some e → Later e → skip + named.length ≤ j

theorem exists_getElem?_right {α β : Type} {R : α → β → Prop} {as : List α} {bs : List β}
    (h : List.Forall₂ R as bs) {k : Nat} {a : α} (ha : as[k]? = some a) :
    ∃ b, bs[k]? = some b ∧ R a b := by
  obtain ⟨hk, rfl⟩ := List.getElem?_eq_some_iff.1 ha
  have hk' : k < bs.length := h.length_eq ▸ hk
  exact ⟨_, List.getElem?_eq_getElem hk', h.get hk hk'⟩

theorem Lowers.measured {guards : Bool} {r f : Context} {p : Parts} (h : Lowers guards r p f)
    (ht : r.table.Sound) (hr : r.consequent.StoresElement) :
    ∃ skip named, Measured r f p.arguments skip named := by
  obtain ⟨named, compared, hsplit, hs⟩ := ((h.checked ht).2.mono h.extends_checked).surveys
  obtain ⟨before, after, hstatements, hbefore, hafter⟩ := h.statements_eq hr
  refine ⟨before.length, named, ⟨fun {i a} => ⟨?_, ?_⟩, hs.nodup,
    fun a ha => (hsplit a).2 (.inl ha), fun name => hs.exists_named ht h.arguments hsplit,
    fun {j e} he hlater => ?_⟩⟩
  · -- a statement that names a length is one of the assignments
    rintro ⟨e, he, ha⟩
    rw [hstatements, List.append_assoc, List.getElem?_append, List.getElem?_append] at he
    split at he
    · obtain ⟨condition, rfl⟩ := hbefore e (List.mem_of_getElem? he)
      exact absurd ha not_assigns_guard
    split at he
    · obtain ⟨b, hb, hassigns⟩ := exists_getElem?_right hs.assignments he
      exact ⟨i - before.length, by omega, ha.unique hassigns ▸ hb⟩
    · exact absurd ha (hafter e (List.mem_of_getElem? he) a)
  · rintro ⟨k, rfl, hk⟩
    obtain ⟨e, he, hassigns⟩ := exists_getElem?_right hs.assignments.flip hk
    have hlt := (List.getElem?_eq_some_iff.1 he).1
    refine ⟨e, ?_, hassigns⟩
    rw [hstatements, List.append_assoc, List.getElem?_append_right (by omega),
      Nat.add_sub_cancel_left, List.getElem?_append_left hlt]
    exact he
  · -- no statement up to the assignments may use a length
    by_contra hlt
    rw [hstatements, List.append_assoc, List.getElem?_append, List.getElem?_append] at he
    split at he
    · obtain ⟨condition, rfl⟩ := hbefore e (List.mem_of_getElem? he)
      cases hlater with
      | allocation hop | loop hop | store hop => cases hop
    split at he
    · obtain ⟨b, -, hassigns⟩ := exists_getElem?_right hs.assignments he
      exact hassigns.not_later hlater
    · have := hs.assignments.length_eq
      omega

namespace Measured

variable {r f : Context} {arguments : List String} {skip : Nat} {named : List Axis}

/-- A length that gets a name is named by one statement. -/
theorem existsUnique (h : Measured r f arguments skip named) {name : String}
    (hn : r.table.Sizes name) : ∃! i, ∃ a, Measures f i a ∧ a.length = .named name := by
  obtain ⟨a, ha, hlength⟩ := (h.sizes name).1 hn
  obtain ⟨k, hk⟩ := List.mem_iff_getElem?.1 ha
  refine ⟨skip + k, ⟨a, h.measures.2 ⟨k, rfl, hk⟩, hlength⟩, ?_⟩
  rintro j ⟨b, hb, hlength'⟩
  obtain ⟨k', rfl, hk'⟩ := h.measures.1 hb
  have hlt : k' < (named.map Axis.length).length := by
    rw [List.length_map]
    exact (List.getElem?_eq_some_iff.1 hk').1
  refine congrArg (skip + ·) ((List.getElem?_inj hlt h.nodup).1 ?_)
  rw [List.getElem?_map, List.getElem?_map, hk, hk', Option.map_some, Option.map_some, hlength,
    hlength']

theorem mem_named (h : Measured r f arguments skip named) {i : Nat} {a : Axis}
    (ha : Measures f i a) : a ∈ named := by
  obtain ⟨k, -, hk⟩ := h.measures.1 ha
  exact List.mem_of_getElem? hk

/-- What gets a name is a symbolic length. -/
theorem exists_name (h : Measured r f arguments skip named) (ht : r.table.Sound) {i : Nat}
    {a : Axis} (ha : Measures f i a) : ∃ n, a.length = .named n ∧ isGenerated n = false ∧
      ∃ symbol, r.table.get? n = some symbol := by
  obtain ⟨n, hn⟩ | ⟨n, hn, hu, hs⟩ := axis_dimension ht (h.axes a (h.mem_named ha))
  · obtain ⟨e, -, hassigns⟩ := ha
    cases hassigns with
    | intro hlength => cases hn.symm.trans hlength
  · exact ⟨n, hn, hu, _, hs⟩

/-- The length of an axis is read off a parameter that has it there. -/
theorem declared (h : Measured r f arguments skip named) (ht : r.table.Sound)
    (harguments : r.table.arguments = .ok arguments) {i : Nat} {a : Axis} (ha : Measures f i a) :
    a.argument ∈ arguments ∧ isGenerated a.argument = false ∧
      ∃ shape, r.table.get? a.argument = some (.array (some shape) none) ∧
        shape[a.place]? = some a.length := by
  obtain ⟨shape, hmem, hget⟩ := mem_axesOf.1 (h.axes a (h.mem_named ha))
  obtain ⟨harg, symbol, hs, hshape⟩ := mem_declaredShapes.1 hmem
  obtain ⟨⟨hu, shape', hs'⟩, -⟩ := (mem_arguments ht harguments).1 harg
  cases hs.symm.trans hs'
  cases hshape
  exact ⟨harg, hu, shape, hs, hget⟩

end Measured

end LoopNest

open LoopNest

/-- **Every name of the user is a parameter or the length of an axis, and not both.** For every source
that has a function, with guards or without: the parameters are names of the user in the order of their
bytes; any other name of the user is named by one statement, a parameter by none; each such statement
reads the length off an axis of a parameter whose declared shape has the name there; and it stands before
the guards of the shapes and of the domain, the allocation, the loops and the store. -/
theorem Context.lower_parameters {source : String} {limit : Nat} {guards : Bool} {c s r f : Context}
    (hc : Context.parse source = .ok c) (hs : c.inferShapes = .ok s) (hr : s.reduce limit = .ok r)
    (hf : r.lower guards = .ok f) :
    (parameters f.tree).Pairwise (fun a b => nameBytes a < nameBytes b) ∧
    (∀ n ∈ parameters f.tree, n ∈ f.table.names ∧ isGenerated n = false) ∧
    (∀ n ∈ f.table.names, isGenerated n = false →
      (n ∈ parameters f.tree ∧ ∀ i a, Measures f i a → a.length ≠ .named n) ∨
      (n ∉ parameters f.tree ∧ ∃! i, ∃ a, Measures f i a ∧ a.length = .named n)) ∧
    (∀ i a, Measures f i a → a.argument ∈ parameters f.tree ∧
      (∃ n, a.length = .named n ∧ n ∈ f.table.names ∧ isGenerated n = false) ∧
      ∃ shape, f.table.get? a.argument = some (.array (some shape) none) ∧
        shape[a.place]? = some a.length) ∧
    ∀ i a j e, Measures f i a → (statements f.tree)[j]? = some e → Later e → i < j := by
  obtain ⟨shape, hred⟩ := Context.reduce_ok (Context.parse_raw hc) hs hr
  obtain ⟨p, hp⟩ := lower_ok hred.condition hf
  have ht := hred.sound
  obtain ⟨skip, named, hmeasured⟩ :=
    hp.measured ht (Context.reduce_stores_element (Context.parse_raw hc) hs hr)
  have hparameters : parameters f.tree = p.arguments := by rw [hp.tree]; rfl
  rw [hparameters]
  refine ⟨?_, fun n hn => ?_, fun n hn hu => ?_, fun i a ha => ?_, fun i a j e ha he hlater => ?_⟩
  · exact (pairwise_arguments hp.arguments).imp nameBytes_lt
  · obtain ⟨⟨hu, shape, hs⟩, -⟩ := (mem_arguments ht hp.arguments).1 hn
    exact ⟨mem_names_of_get? ((hp.users ht hu).trans hs), hu⟩
  · by_cases hsizes : r.table.Sizes n
    · exact .inr ⟨not_mem_arguments ht hp.arguments hsizes, hmeasured.existsUnique hsizes⟩
    · obtain ⟨symbol, hs⟩ := exists_get? hn
      rw [hp.users ht hu] at hs
      refine .inl ⟨(mem_arguments ht hp.arguments).2 ⟨⟨hu, ?_⟩, hsizes⟩, fun i a ha hlength => ?_⟩
      · cases ht.entry hs with
        | user => exact ⟨_, hs⟩
        | vector hg | constant hg | index hg => simp [hg] at hu
      · exact hsizes ((hmeasured.sizes n).2 ⟨a, hmeasured.mem_named ha, hlength⟩)
  · obtain ⟨harg, hu, shape, hs, hget⟩ := hmeasured.declared ht hp.arguments ha
    obtain ⟨n, hlength, hn, symbol, hsn⟩ := hmeasured.exists_name ht ha
    exact ⟨harg, ⟨n, hlength, mem_names_of_get? ((hp.users ht hn).trans hsn), hn⟩, shape,
      (hp.users ht hu).trans hs, hget⟩
  · obtain ⟨k, rfl, hk⟩ := hmeasured.measures.1 ha
    have hlt := (List.getElem?_eq_some_iff.1 hk).1
    have hle := hmeasured.later he hlater
    omega

/-- A length of two matrices that is data, too: it is no parameter, and is read off once. -/
theorem Context.lower_parameters_data : ∃ c s r f,
    Context.parse "A^<n 3> * n + B^<m n>" = .ok c ∧ c.inferShapes = .ok s ∧
    s.reduce 100 = .ok r ∧ r.lower true = .ok f ∧ parameters f.tree = ["A", "B"] ∧
    (∀ n ∈ ["n", "m"], ∃! i, ∃ a, Measures f i a ∧ a.length = .named n) ∧
    ∀ i a, Measures f i a → a.argument = "A" ∨ a.argument = "B" := by
  have hrun : (do
      let c ← Context.parse "A^<n 3> * n + B^<m n>"
      let s ← c.inferShapes
      let r ← s.reduce 100
      let f ← r.lower true
      return decide (parameters f.tree = ["A", "B"] ∧ "n" ∈ f.table.names ∧
        "m" ∈ f.table.names)) = .ok true := by
    decide +kernel
  obtain ⟨c, s, r, f, hc, hs, hr, hf, hrun⟩ := exists_lowered hrun
  simp only [pure, Except.pure, Except.ok.injEq, decide_eq_true_eq] at hrun
  obtain ⟨hparameters, hn, hm⟩ := hrun
  obtain ⟨-, -, hnames, haxes, -⟩ := lower_parameters hc hs hr hf
  rw [hparameters] at hnames haxes
  refine ⟨c, s, r, f, hc, hs, hr, hf, hparameters, fun n hmem => ?_, fun i a ha => ?_⟩
  · have hgiven : n ∈ f.table.names ∧ isGenerated n = false ∧ n ∉ ["A", "B"] := by
      simp only [List.mem_cons, List.not_mem_nil, or_false] at hmem
      rcases hmem with rfl | rfl
      · exact ⟨hn, by decide, by decide⟩
      · exact ⟨hm, by decide, by decide⟩
    obtain ⟨hmem, hu, hnot⟩ := hgiven
    rcases hnames n hmem hu with ⟨hparameter, -⟩ | ⟨-, hunique⟩
    · exact absurd hparameter hnot
    · exact hunique
  · simpa using (haxes i a ha).1

end PsiCalculus
