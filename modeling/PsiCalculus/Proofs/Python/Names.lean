import PsiCalculus.Proofs.NormalForm.Scoping
import PsiCalculus.Proofs.Python.Parts

/-!
# Names of a function

The statement inside the loops mentions names of three kinds: arrays of the expression, indices that
are in scope where they stand, and names of the user inside index vectors and ranges. Index vectors are
written out element by element, and so are constants if known scalars are literals. A vector literal
that stands for an array of its own is left to be mentioned by its generated name.

* `Expr.data e`: the arrays of an expression, but for index vectors. `Expr.literals e`: those that are
  not the user's.
* `Writes.names_mem`: what is written of an expression mentions no other names.
* `LoopNest.Lowers.emits`: a function is written, and closed but for the literals of its expression.
-/

namespace PsiCalculus

open SymbolTable

/-! ## Arrays of a tree -/

/-- The number of leading operands that only say which elements of the others are meant. -/
def Operator.vectors : Operator → Nat
  | .psi | .permute => 1
  | _ => 0

namespace Expr

/-- The array that a node of its own stands for. -/
def ownData : Operator → Payload → List String
  | .array, .name name => [name]
  | _, _ => []

mutual

/-- The arrays of a tree, but for index vectors and orders of axes. -/
def data : Expr → List String
  | .node op _ payload children =>
    ownData op payload ++ ((dataAll children).drop op.vectors).flatten
termination_by structural e => e

/-- The arrays of each of several trees. -/
def dataAll : List Expr → List (List String)
  | [] => []
  | c :: cs => c.data :: dataAll cs
termination_by structural cs => cs

end

/-- The vector literals that stand for arrays of their own. -/
def literals (e : Expr) : List String := e.data.filter isGenerated

theorem dataAll_eq : ∀ es : List Expr, dataAll es = es.map data
  | [] => rfl
  | e :: es => by rw [dataAll, dataAll_eq es, List.map_cons]

theorem data_node {op : Operator} {s : Option Shape} {payload : Payload} {children : List Expr} :
    (node op s payload children).data =
      ownData op payload ++ (children.drop op.vectors).flatMap data := by
  rw [data, dataAll_eq, ← List.map_drop, List.flatMap]

theorem data_child {op : Operator} {s : Option Shape} {payload : Payload} {children : List Expr}
    {c : Expr} (hc : c ∈ children.drop op.vectors) : c.data ⊆ (node op s payload children).data := by
  intro name hn
  rw [data_node]
  exact List.mem_append_right _ (List.mem_flatMap.2 ⟨c, hc, hn⟩)

theorem forall_data_child {S : String → Prop} {scope : List String} {op : Operator} {s : Option Shape}
    {payload : Payload} {children : List Expr}
    (hS : ∀ name ∈ scope ++ (node op s payload children).data, S name) {c : Expr}
    (hc : c ∈ children.drop op.vectors) : ∀ name ∈ scope ++ c.data, S name := by
  rw [List.forall_mem_append] at hS ⊢
  exact ⟨hS.1, fun name hn => hS.2 name (data_child hc hn)⟩

theorem data_arrayName {e : Expr} {name : String} (h : e.arrayName? = some name) : name ∈ e.data := by
  obtain ⟨op, s, payload, children⟩ := e
  unfold arrayName? at h
  split at h
  · next hop =>
    obtain rfl : op = .array := hop
    cases payload with
    | name =>
      cases h
      rw [data_node]
      exact List.mem_append_left _ (.head _)
    | none | raise | function | loop => cases h
  · cases h

theorem data_subset_mentions (e : Expr) : e.data ⊆ e.mentions := by
  induction e using Expr.induction_on_children with
  | node op s payload children ih =>
    intro name hn
    rw [data_node] at hn
    rw [mentions, mentionsAll_eq]
    rcases List.mem_append.1 hn with hn | hn
    · refine List.mem_append_left _ ?_
      unfold ownData at hn
      split at hn
      · exact hn
      · cases hn
    · obtain ⟨c, hc, hn⟩ := List.mem_flatMap.1 hn
      have hc := List.mem_of_mem_drop hc
      exact List.mem_append_right _ (List.mem_flatMap.2 ⟨c, hc, ih c hc hn⟩)

/-- An array of a tree is the user's, or a literal. -/
theorem data_user {t : SymbolTable} (ht : t.Sound) {e : Expr} (hk : e.Known t) {name : String}
    (hn : name ∈ e.data) : t.User name ∨ name ∈ e.literals := by
  cases hg : isGenerated name with
  | true => exact .inr (List.mem_filter.2 ⟨hn, hg⟩)
  | false =>
    obtain ⟨s, hs⟩ := exists_get? (hk name (e.data_subset_mentions hn))
    cases ht.entry hs with
    | user => exact .inl ⟨hg, _, hs⟩
    | vector hg' | constant hg' | index hg' => simp [hg] at hg'

end Expr

/-! ## Names of an expression -/

namespace Python

variable {p : Python} {t : SymbolTable} {S : String → Prop}

theorem names_array (hlit : p.literals = true) (ht : t.Sound) (hx : Extends t p.table)
    {name : String} (hk : name ∈ t.names) {other : String}
    (hn : other ∈ (p.atom (.named name)).names) : other = name := by
  obtain ⟨s, hs⟩ := exists_get? hk
  have hname : p.scalarValue? name = none → other = name := by
    intro hvalue
    rw [atom_named hvalue] at hn
    exact List.mem_singleton.1 hn
  cases ht.entry hs with
  | user => exact hname (scalarValue?_eq_none (hx.get? hs) fun _ _ hv => by cases hv)
  | vector => exact hname (scalarValue?_eq_none (hx.get? hs) fun _ hv => by cases hv)
  | constant =>
    rw [atom_constant hlit (hx.get? hs)] at hn
    cases hn
  | index => exact hname (scalarValue?_eq_none (hx.get? hs) fun _ _ hv => by cases hv)

theorem atom_index {k : String} {bound : Element} (h : p.table.get? k = some (.index bound)) :
    p.atom (.named k) = .name k :=
  atom_named (scalarValue?_eq_none h fun _ _ hv => by cases hv)

/-- The elements of an index vector are names of the user and indices. -/
theorem names_values (ht : t.Sound) (hx : Extends t p.table) {v : String} {s : Symbol}
    {values : Shape} (hs : t.get? v = some s) (hv : s.value = some values)
    (huser : ∀ name, t.User name → S name)
    (hindex : ∀ name ∈ Shape.names values, t.isIndex name = true → S name) :
    ∀ name ∈ (values.map p.atom).flatMap Atom.names, S name := by
  intro name hn
  obtain ⟨a, ha, hn⟩ := List.mem_flatMap.1 hn
  obtain ⟨x, hmem, rfl⟩ := List.mem_map.1 ha
  rcases ht.value_element hs hv x hmem with hd | ⟨k, bound, rfl, hk⟩
  · obtain rfl := names_dimension (hd.mono hx) hn
    exact huser name hd.user
  · rw [atom_index (hx.get? hk)] at hn
    obtain rfl := List.mem_singleton.1 hn
    exact hindex name (List.mem_filterMap.2 ⟨_, hmem, rfl⟩) (isIndex_iff.2 ⟨_, hk, rfl⟩)

/-- Operators between their operands bind nothing, and have no index vectors. -/
theorem between?_plain {op : Operator} {symbol : String} (hop : between? op = some symbol) :
    op.vectors = 0 ∧ ∀ payload, Expr.ownBound op payload = [] := by
  cases op with
  | arith | compare | logic => exact ⟨rfl, fun payload => by cases payload <;> rfl⟩
  | _ => cases hop

/-- **What is written of an expression mentions** its arrays, indices in scope and names of the user. -/
theorem Writes.names_mem (hlit : p.literals = true) (ht : t.Sound) (hx : Extends t p.table)
    {e : Expr} {term : Term} (h : Writes p e term) {scope : List String} (hk : e.Known t)
    (hs : e.Scoped t scope) (huser : ∀ name, t.User name → S name)
    (hS : ∀ name ∈ globals ++ scope ++ e.data, S name) : ∀ name ∈ term.names, S name := by
  induction h generalizing S scope with
  | array =>
    intro name hn
    obtain rfl := names_array hlit ht hx hk.name hn
    exact hS name (List.mem_append_right _ (Expr.data_arrayName rfl))
  | @psi _ _ v X rest leaf symbol values _ hname hget hvalue _ ih =>
    have hget' := (hx.get?_eq ((hk.child v (.head _)).arrayName hname)).symm.trans hget
    have hX : X ∈ v :: X :: rest := .tail _ (.head _)
    rw [Term.names_select, List.forall_mem_append]
    refine ⟨ih (hk.child X hX) (hs.child rfl X hX) huser (Expr.forall_data_child hS (.head _)), ?_⟩
    refine names_values ht hx hget' hvalue huser fun name hn hi => hS name ?_
    have hscope := (hs.child rfl v (.head _)).value_names hname hget' hvalue name hn hi
    exact List.mem_append_left _ (List.mem_append_right _ hscope)
  | @between op symbol _ _ l r rest _ _ hop _ _ ihl ihr =>
    obtain ⟨hvectors, hbound⟩ := between?_plain hop
    have hchild := hs.child (hbound _)
    rw [Term.names, List.forall_mem_append]
    refine ⟨ihl (hk.child l (.head _)) (hchild l (.head _)) huser (Expr.forall_data_child hS ?_),
      ihr (hk.child r (.tail _ (.head _))) (hchild r (.tail _ (.head _))) huser
        (Expr.forall_data_child hS ?_)⟩
    · rw [hvectors]
      exact .head _
    · rw [hvectors]
      exact .tail _ (.head _)
  | @not _ _ e rest _ _ ih | @shape _ _ e rest _ _ ih =>
    exact ih (hk.child e (.head _)) (hs.child rfl e (.head _)) huser
      (Expr.forall_data_child hS (.head _))
  | @dim _ _ e rest _ _ ih =>
    refine List.forall_mem_cons.2 ⟨hS _ (List.mem_append_left _ (List.mem_append_left _ (by decide))),
      ih (hk.child e (.head _)) (hs.child rfl e (.head _)) huser
        (Expr.forall_data_child hS (.head _))⟩
  | @fold op _ k body rest symbol start stop step _ hget hvalue _ ih =>
    obtain ⟨-, hindex, hchild⟩ := Expr.scoped_node.1 hs
    obtain ⟨symbol', hget', hkind⟩ := isIndex_iff.1 (hindex k (.head _))
    cases (hx.get? hget').symm.trans hget
    have hglobal : ∀ name ∈ globals, S name := fun name hn =>
      hS name (List.mem_append_left _ (List.mem_append_left _ hn))
    cases ht.entry hget' with
    | user | vector | constant => cases hkind
    | index _ hdim =>
      cases hvalue
      have hS' : ∀ name ∈ globals ++ ([k] ++ scope) ++ body.data, name = k ∨ S name := by
        intro name hn
        have hother := Expr.forall_data_child hS (.head _) name
        simp only [List.mem_append, List.mem_singleton] at hn hother
        tauto
      have hbody := ih (S := fun name => name = k ∨ S name) (hk.child body (.head _))
        (hchild body (.head _)) (fun name hn => .inr (huser name hn)) hS'
      refine List.forall_mem_cons.2 ⟨hglobal _ (by decide), List.forall_mem_cons.2
        ⟨hglobal _ (by decide), List.forall_mem_append.2 ⟨?_, fun name hn => ?_⟩⟩⟩
      · exact LoopNest.names_rangeOf (hdim.mono hx) (hglobal _ (by decide)) fun name hn =>
          huser name (hn ▸ hdim : t.Dimension (.named name)).user
      · obtain ⟨hn, hne⟩ := List.mem_filter.1 hn
        exact (hbody name hn).resolve_left (by simpa using hne)

end Python

/-! ## Names of a function -/

open Python

theorem Context.Reduced.dimension {s r : Context} {shape : Shape} (h : s.Reduced r shape) :
    ∀ x ∈ shape, r.table.Dimension x := by
  intro x hx
  rcases h.lengths x hx with hint | ⟨name, symbol, lengths, hget, hlengths, hmem⟩
  · exact .inl hint
  · exact h.sound.shape_element hget hlengths x hmem

namespace LoopNest

variable {S : String → Prop} {guards literals : Bool} {s r f : Context} {shape : Shape} {parts : Parts}

theorem assignmentTarget_data {e : Expr} {name : String} (hop : e.op = .assign)
    (h : assignmentTarget e = .ok name) : name ∈ e.data := by
  obtain ⟨op, a, payload, children⟩ := e
  cases hop
  unfold assignmentTarget at h
  split at h
  · cases h
  · next target rest heq =>
    obtain rfl : children = target :: rest := heq
    refine Expr.data_child (.head _) ?_
    dsimp only at h
    split at h
    · next hname =>
      cases h
      split at hname
      · next v operand rest hop hchildren =>
        obtain ⟨op, a, payload, children⟩ := target
        cases hop
        cases hchildren
        exact Expr.data_child (.head _) (Expr.data_arrayName hname)
      · exact Expr.data_arrayName hname
    · cases h

/-- The element of a fresh result at the indices mentions both. -/
theorem names_store {p : Python} {result v : String} {a b c : Option Shape} {indices : List String}
    {target : Term} (h : Writes p (.binary .psi c (.array v a) (.array result b)) target)
    (hv : p.table.get? v = some (.literal (indices.map .named)))
    (hresult : p.table.get? result = some (.array (some shape) none))
    (hindices : ∀ index ∈ indices, ∃ bound, p.table.get? index = some (.index bound)) :
    ∀ name ∈ target.names, name = result ∨ name ∈ indices := by
  intro name hn
  cases h with
  | between hop => cases hop
  | psi hname hget hvalue hX =>
    cases hname
    cases hX
    cases hv.symm.trans hget
    cases hvalue
    rw [Term.names_select, Term.names, atom_open hresult] at hn
    rcases List.mem_append.1 hn with hn | hn
    · exact .inl (List.mem_singleton.1 hn)
    · obtain ⟨x, hx, hn⟩ := List.mem_flatMap.1 hn
      simp only [List.mem_map, exists_exists_and_eq_and] at hx
      obtain ⟨index, hindex, rfl⟩ := hx
      obtain ⟨bound, hbound⟩ := hindices index hindex
      rw [atom_index hbound] at hn
      exact .inr (List.mem_singleton.1 hn ▸ hindex)

/-- The table of the function has what the reduced context has. -/
theorem Lowers.extends_reduced (h : Lowers guards r parts f) (hred : s.Reduced r shape) :
    Extends r.table f.table :=
  (h.checked hred.sound).1.grows.entries.trans h.extends_checked

/-- The assignment inside the loops mentions the result, the indices of the loops, names of the user
and arrays of the expression. -/
theorem Lowers.names_body (h : Lowers guards r parts f) (hred : s.Reduced r shape)
    {target value : Term} (hbody : Emits ⟨f.table, literals⟩ parts.body (.assign target value))
    (hlit : literals = true) (huser : ∀ name, r.table.User name → S name) (hresult : S parts.result)
    (hS : ∀ name ∈ globals ++ s.seeds ++ r.consequent.data, S name) :
    ∀ name ∈ target.names ++ value.names, S name := by
  have hx := h.extends_reduced hred
  have hknown := hred.known
  have hscoped := hred.in_scope
  rw [List.forall_mem_append]
  cases h.target with
  | own hop _ _ heq =>
    rw [heq] at hbody
    generalize r.consequent = e at hbody hknown hscoped hS
    cases hbody with
    | @assign _ _ left right rest _ _ hl hr =>
      have hright : right ∈ left :: right :: rest := .tail _ (.head _)
      exact ⟨hl.names_mem hlit hred.sound hx (hknown.child left (.head _))
          (hscoped.child rfl left (.head _)) huser (Expr.forall_data_child hS (.head _)),
        hr.names_mem hlit hred.sound hx (hknown.child right hright)
          (hscoped.child rfl right hright) huser (Expr.forall_data_child hS hright)⟩
  | fresh _ hstore =>
    obtain ⟨v, a, t₁, hadds, hvector, heq⟩ := (store_ok hstore).exists_vector
    obtain ⟨htable, -⟩ := loops_ok h.nest
    rw [← htable] at hvector
    rw [heq] at hbody
    cases hbody with
    | assign hl hr =>
      refine ⟨fun name hn => ?_, hr.names_mem hlit hred.sound hx hknown hscoped huser hS⟩
      have hseeds := hred.free (h.checked hred.sound).1 h.indices
      have hindices : ∀ index ∈ parts.indices, ∃ bound, f.table.get? index = some (.index bound) := by
        intro index hmem
        obtain ⟨bound, -, hget⟩ := exists_of_mem_right hred.seeds.flip (hseeds ▸ hmem)
        exact ⟨bound, hx.get? hget⟩
      rcases names_store hl hvector.get?_self (hvector.grows.get? hadds.get?_self) hindices name hn
        with rfl | hn
      · exact hresult
      · exact hS name (List.mem_append_left _ (List.mem_append_right _ (hseeds ▸ hn)))

/-- The lengths of the root are dimensions, also of the function. -/
theorem Lowers.dimension (h : Lowers guards r parts f) (hred : s.Reduced r shape)
    (huser : ∀ name, r.table.User name → S name) :
    ∀ x ∈ shape, f.table.Dimension x ∧ ∀ name, x = .named name → S name := by
  intro x hx
  have hdim := hred.dimension x hx
  refine ⟨hdim.mono (h.extends_reduced hred), fun name hn => huser name ?_⟩
  exact (hn ▸ hdim : r.table.Dimension (.named name)).user

/-- The loops are written, and mention what is not theirs from around them. -/
theorem Lowers.lists_nest (h : Lowers guards r parts f) (hred : s.Reduced r shape)
    {target value : Term} (hbody : Emits ⟨f.table, literals⟩ parts.body (.assign target value))
    (huser : ∀ name, r.table.User name → S name) (hresult : S parts.result)
    (hS : ∀ name ∈ globals ++ r.consequent.data, S name) :
    ∃ nest, Lists ⟨f.table, literals⟩ S [parts.nest] [nest] := by
  obtain ⟨hgrows, -⟩ := h.checked hred.sound
  have hseeds := hred.free hgrows h.indices
  obtain ⟨hstored, hnested⟩ := loops_ok h.nest
  rw [← hstored] at hnested
  rw [List.forall_mem_append] at hS
  refine Nested.emits (p := ⟨f.table, literals⟩) hnested hbody (hS.1 _ (by decide))
    (fun index hmem => ?_) fun hlit => ?_
  · obtain ⟨length, hlength, hget⟩ := exists_of_mem_right hred.seeds.flip (hseeds ▸ hmem)
    exact ⟨length, (h.extends_reduced hred).get? hget, h.dimension hred huser length hlength⟩
  · have hnames := h.names_body (S := fun name => name ∈ parts.indices ∨ S name) hred hbody hlit
      (fun name hn => .inr (huser name hn)) (.inr hresult)
    rw [List.forall_mem_append, List.forall_mem_append] at hnames
    have hbound := hnames ⟨⟨fun name hn => .inr (hS.1 name hn), fun name hn => .inl (hseeds ▸ hn)⟩,
      fun name hn => .inr (hS.2 name hn)⟩
    exact fun name hn => hbound name (Statement.names_assign hn)

/-- **A function is written**, and is closed but for the vector literals of its expression. -/
theorem Lowers.emits (h : Lowers guards r parts f) (hred : s.Reduced r shape) {target value : Term}
    (hbody : Emits ⟨f.table, literals⟩ parts.body (.assign target value)) :
    ∃ fn, Renders literals f fn ∧
      (literals = true → fn.ClosedOver (globals ++ r.consequent.literals)) := by
  obtain ⟨-, hchecked⟩ := h.checked hred.sound
  obtain ⟨ds, hguards, hds⟩ := hred.guards
  let scope := globals ++ r.consequent.literals ++ parts.arguments
  have hscope : ∀ name ∈ globals ++ parts.arguments, name ∈ scope := by
    intro name hn
    simp only [scope, List.mem_append] at hn ⊢
    tauto
  obtain ⟨ssP, hP, huser, hclosed⟩ :=
    Checked.emits (p := ⟨f.table, literals⟩) hred.sound (h.extends_reduced hred) h.arguments
      (hchecked.mono h.extends_checked) hguards hds guards hscope
  let opened := scope ++ ssP.flatMap Statement.binds
  have hglobal : ∀ name ∈ globals, name ∈ opened := fun name hn =>
    List.mem_append_left _ (hscope name (List.mem_append_left _ hn))
  have hdata : ∀ name ∈ r.consequent.data, name ∈ opened := by
    intro name hn
    rcases Expr.data_user hred.sound hred.known hn with hn | hn
    · exact huser name hn
    · exact List.mem_append_left _ (List.mem_append_left _ (List.mem_append_right _ hn))
  obtain ⟨ssA, hA, hallocated⟩ := h.allocates (p := ⟨f.table, literals⟩) (S := (· ∈ opened))
    (hglobal _ (by decide)) fun x hx =>
      h.dimension hred huser x (Option.some.inj (hred.root.symm.trans h.shape) ▸ hx)
  let bound := opened ++ ssA.flatMap Statement.binds
  have hbound : ∀ {name}, name ∈ opened → name ∈ bound := List.mem_append_left _
  have hresult : parts.result ∈ bound := by
    cases h.target with
    | own hop _ _ _ htarget => exact hbound (hdata _ (assignmentTarget_data hop htarget))
    | fresh hop => exact List.mem_append_right _ (hallocated hop)
  obtain ⟨nest, hnest⟩ := h.lists_nest (S := (· ∈ bound)) hred hbody
    (fun name hn => hbound (huser name hn)) hresult
    (List.forall_mem_append.2 ⟨fun name hn => hbound (hglobal name hn),
      fun name hn => hbound (hdata name hn)⟩)
  refine ⟨⟨parts.arguments, ssP ++ ssA ++ [nest], parts.result⟩,
    .intro h.tree (List.rel_append (List.rel_append hP hA.emits) hnest.emits), fun hlit => ⟨?_, ?_⟩⟩
  · rw [closed_append, closed_append, List.flatMap_append, ← List.append_assoc]
    exact ⟨⟨hclosed hlit, hA.closed hlit fun _ => id⟩, hnest.closed hlit fun _ => id⟩
  · rw [List.flatMap_append, List.flatMap_append, ← List.append_assoc, ← List.append_assoc]
    exact List.mem_append_left _ hresult

end LoopNest

end PsiCalculus
