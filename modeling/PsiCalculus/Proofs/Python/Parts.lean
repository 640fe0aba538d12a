import PsiCalculus.Proofs.LoopNest.Opening
import PsiCalculus.Proofs.Python.Syntax

/-!
# Names of the parts of a function

What the statements of a function are written as, and which names they mention. The scalars that
checks compare with have known values, so that no generated name is left where known scalars are
literals. All names of the user are bound after the opening: as parameters, or as lengths that are
read off parameters.

* `Prints p S e`, `Lists p S es ss`: the expression `e`, or the statements `es`, are written, with
  names in `S` only if known scalars are literals.
* `Checked.emits`: the opening is written, closed over the parameters, and binds the other names of the
  user.
* `Nested.emits`: loops are written, and bind their indices for the statement inside.
-/

namespace PsiCalculus

open SymbolTable

namespace Python

variable {p : Python} {S : String → Prop}

/-! ## Elements -/

/-- The names that are bound in every module. -/
def globals : List String := ["functools", "operator", "numpy", "range", "len", "Exception"]

theorem atom_int (n : Int) : p.atom (.int n) = .number n := rfl

theorem atom_named {name : String} (h : p.scalarValue? name = none) :
    p.atom (.named name) = .name name := by
  have hname : (Expr.array name (some [])).name? = some name := rfl
  rw [atom, Element.named, atomWithin, hname]
  dsimp only
  rw [h]

theorem scalarValue?_eq_none {name : String} {s : Symbol} (hs : p.table.get? name = some s)
    (h : ∀ x, s.shape = some [] → s.value ≠ some [x]) : p.scalarValue? name = none := by
  unfold scalarValue?
  rw [hs]
  split
  · split
    · next heq =>
      cases heq
      exact absurd rfl (h _ rfl)
    · rfl
  · rfl

theorem atom_open {name : String} {shape : Option Shape}
    (h : p.table.get? name = some (.array shape none)) : p.atom (.named name) = .name name :=
  atom_named (scalarValue?_eq_none h fun _ _ hvalue => by cases hvalue)

theorem atom_constant {name : String} {n : Int} (hlit : p.literals = true)
    (h : p.table.get? name = some (.array (some []) (some [.int n]))) :
    p.atom (.named name) = .number n := by
  have hvalue : p.scalarValue? name = some (.int n) := by
    unfold scalarValue?
    rw [h, if_pos hlit]
    rfl
  have hname : (Expr.array name (some [])).name? = some name := rfl
  rw [atom, Element.named, atomWithin, hname]
  dsimp only
  rw [hvalue]
  dsimp only
  rw [atomWithin]

/-- A dimension mentions itself only. -/
theorem names_dimension {x : Element} (hx : p.table.Dimension x) {name : String}
    (hn : name ∈ (p.atom x).names) : x = .named name := by
  obtain ⟨n, rfl⟩ | ⟨other, rfl, -, hs⟩ := hx
  · cases hn
  · rw [atom_open hs] at hn
    rw [List.mem_singleton.1 hn]

/-! ## Expressions -/

/-- The expression is written and, if known scalars are literals, mentions names in `S` only. -/
def Prints (p : Python) (S : String → Prop) (e : Expr) : Prop :=
  ∃ term, Writes p e term ∧ (p.literals = true → ∀ name ∈ term.names, S name)

theorem Prints.between {op : Operator} {symbol : String} (hop : between? op = some symbol)
    {s : Option Shape} {l r : Expr} (hl : Prints p S l) (hr : Prints p S r) :
    Prints p S (.binary op s l r) := by
  obtain ⟨left, hleft, hnames⟩ := hl
  obtain ⟨right, hright, hnames'⟩ := hr
  refine ⟨_, .between hop hleft hright, fun hlit => ?_⟩
  rw [Term.names, List.forall_mem_append]
  exact ⟨hnames hlit, hnames' hlit⟩

theorem Prints.dim {s : Option Shape} {e : Expr} (hlen : S "len") (h : Prints p S e) :
    Prints p S (.unary .dim s e) := by
  obtain ⟨term, hterm, hnames⟩ := h
  refine ⟨_, .dim hterm, fun hlit => ?_⟩
  rw [Term.names, List.forall_mem_cons]
  exact ⟨hlen, hnames hlit⟩

theorem prints_open {name : String} {shape : Option Shape}
    (h : p.table.get? name = some (.array shape none)) (hS : S name) (a : Option Shape) :
    Prints p S (.array name a) := by
  refine ⟨_, .array, fun _ => ?_⟩
  rw [atom_open h]
  exact List.forall_mem_singleton.2 hS

end Python

open Python

section
variable {p : Python} {S : String → Prop}

theorem Stands.prints {e : Expr} {x : Element} (h : Stands p.table e x)
    (hS : ∀ name, x = .named name → S name) : Prints p S e := by
  cases h with
  | symbolic hget => exact prints_open hget (hS _ rfl) _
  | constant _ hget =>
    refine ⟨_, .array, fun hlit => ?_⟩
    rw [atom_constant hlit hget]
    exact List.forall_mem_nil _

theorem Guards.prints {g : Expr} {cs : List Check} (h : Guards p.table g cs)
    (hS : ∀ c ∈ cs, ∀ name, c.left = .named name ∨ c.right = .named name → S name) :
    Prints p S g := by
  induction h with
  | one hd =>
    cases hd with
    | compare hl hr =>
      have hc := hS _ (.head _)
      exact .between rfl (hl.prints fun name hn => hc name (.inl hn))
        (hr.prints fun name hn => hc name (.inr hn))
  | and _ _ ihl ihr =>
    rw [List.forall_mem_append] at hS
    exact .between rfl (ihl hS.1) (ihr hS.2)

theorem Condition.prints_conjunction {conditions : List Expr} {g : Expr}
    (h : ∀ e ∈ conditions, Prints p S e) (hg : conjunction conditions = some g) : Prints p S g := by
  cases conditions with
  | nil => cases hg
  | cons first rest =>
    cases hg
    have hfirst := h first (.head _)
    replace h := fun e he => h e (List.mem_cons_of_mem first he)
    induction rest generalizing first with
    | nil => exact hfirst
    | cons e rest ih =>
      exact ih _ (.between rfl hfirst (h e (.head _))) fun e' he' => h e' (.tail _ he')

end

/-- An array of the user. -/
def SymbolTable.User (t : SymbolTable) (name : String) : Prop :=
  isGenerated name = false ∧ ∃ shape, t.get? name = some (.array shape none)

theorem SymbolTable.Dimension.user {t : SymbolTable} {name : String}
    (h : t.Dimension (.named name)) : t.User name := by
  obtain ⟨-, hu, hget⟩ := h.named_of_name rfl
  exact ⟨hu, _, hget⟩

namespace LoopNest

variable {p : Python} {S : String → Prop}

theorem Reads.prints {e : Expr} {a : Axis} {shape : Option Shape} (h : Reads p.table e a)
    (ha : p.table.get? a.argument = some (.array shape none)) (hS : S a.argument) :
    Prints p S e := by
  cases h with
  | intro hv =>
    refine ⟨_, .psi rfl hv rfl (.shape .array), fun _ => ?_⟩
    rw [Term.names_select, atom_open ha]
    simpa [Term.names, Atom.names, atom_int] using hS

theorem RankCheck.prints {e : Expr} {argument : String} {shape : Shape} {a : Option Shape}
    (h : RankCheck p.table e (argument, shape))
    (ha : p.table.get? argument = some (.array a none)) (hlen : S "len") (hS : S argument) :
    Prints p S e := by
  cases h with
  | intro hrank =>
    exact .between rfl ((prints_open ha hS _).dim hlen) (hrank.prints fun _ hn => by cases hn)

theorem Compares.prints {e : Expr} {a : Axis} {shape : Option Shape} (h : Compares p.table e a)
    (ha : p.table.get? a.argument = some (.array shape none)) (hS : S a.argument)
    (hlength : ∀ name, a.length = .named name → S name) : Prints p S e := by
  cases h with
  | intro hscalar hreads => exact .between rfl (hscalar.prints hlength) (hreads.prints ha hS)

/-! ## Statements -/

/-- The statements are written as `ss` and, if known scalars are literals, mention names in `S` only. -/
structure Lists (p : Python) (S : String → Prop) (es : List Expr) (ss : List Statement) : Prop where
  emits : List.Forall₂ (Emits p) es ss
  names : p.literals = true → ∀ s ∈ ss, ∀ name ∈ s.names, S name

theorem Lists.append {es es' : List Expr} {ss ss' : List Statement} (h : Lists p S es ss)
    (h' : Lists p S es' ss') : Lists p S (es ++ es') (ss ++ ss') :=
  ⟨List.rel_append h.emits h'.emits,
    fun hlit => List.forall_mem_append.2 ⟨h.names hlit, h'.names hlit⟩⟩

theorem Lists.closed {es : List Expr} {ss : List Statement} (h : Lists p S es ss)
    (hlit : p.literals = true) {scope : List String} (hS : ∀ name, S name → name ∈ scope) :
    Closed scope ss :=
  closed_of_forall fun s hs name hn => hS name (h.names hlit s hs name hn)

theorem Lists.nil : Lists p S [] [] := ⟨.nil, fun _ => List.forall_mem_nil _⟩

theorem lists_guard {g : Expr} (kind : GuardKind) (hexception : S "Exception") (h : Prints p S g) :
    ∃ ss, Lists p S [guard kind g] ss := by
  obtain ⟨term, hterm, hnames⟩ := h
  refine ⟨_, .cons (.check kind hterm) .nil, fun hlit => List.forall_mem_singleton.2 ?_⟩
  rw [Statement.names, List.forall_mem_cons]
  exact ⟨hexception, hnames hlit⟩

theorem lists_guardAll {conditions : List Expr} (kind : GuardKind) (hexception : S "Exception")
    (h : ∀ e ∈ conditions, Prints p S e) : ∃ ss, Lists p S (guardAll kind conditions) ss := by
  unfold guardAll
  cases hg : Condition.conjunction conditions with
  | none => exact ⟨[], .nil⟩
  | some g => exact lists_guard kind hexception (Condition.prints_conjunction h hg)

/-- The lengths that are read off arguments are bound under their names. -/
theorem lists_assignments {assignments : List Expr} {named : List Axis}
    (h : List.Forall₂ (Assigns p.table) assignments named)
    (hnamed : ∀ a ∈ named, p.table.Dimension a.length ∧ S a.argument ∧
      ∃ shape, p.table.get? a.argument = some (.array shape none)) :
    ∃ ss, Lists p S assignments ss ∧
      ∀ a ∈ named, ∀ name, a.length = .named name → name ∈ ss.flatMap Statement.binds := by
  induction h with
  | nil => exact ⟨[], .nil, by simp⟩
  | @cons e a es named he _ ih =>
    rw [List.forall_mem_cons] at hnamed
    obtain ⟨ss, hss, hbinds⟩ := ih hnamed.2
    obtain ⟨hdim, hS, shape, hget⟩ := hnamed.1
    cases he with
    | intro hlength hreads =>
      rename_i name length
      rw [hlength] at hdim
      obtain ⟨-, -, hopen⟩ := hdim.named_of_name rfl
      obtain ⟨term, hterm, hnames⟩ := hreads.prints hget hS
      refine ⟨.assign (.atom (.name name)) term :: ss, ⟨.cons ?_ hss.emits, fun hlit => ?_⟩,
        List.forall_mem_cons.2 ⟨fun name' hname => ?_, fun b hb name' hname => ?_⟩⟩
      · have hwrites : Writes p (.array name (some [])) (.atom (.name name)) :=
          atom_open hopen ▸ .array
        exact .assign hwrites hterm
      · exact List.forall_mem_cons.2 ⟨hnames hlit, hss.names hlit⟩
      · rw [hlength] at hname
        cases hname
        exact List.mem_flatMap.2 ⟨_, .head _, .head _⟩
      · rw [List.flatMap_cons]
        exact List.mem_append_right _ (hbinds b hb name' hname)

/-! ## The opening -/

section
variable {t : SymbolTable} {arguments : List String}

/-- An axis that is checked is one of a parameter. -/
theorem axis_parameter (ht : t.Sound) (harg : t.arguments = .ok arguments) (hx : Extends t p.table)
    {a : Axis} (ha : a ∈ axesOf (declaredShapes t arguments)) :
    a.argument ∈ arguments ∧ p.table.Dimension a.length ∧
      ∃ shape, p.table.get? a.argument = some (.array shape none) := by
  have hargument := axis_argument ha
  obtain ⟨⟨-, shape, hs⟩, -⟩ := (mem_arguments ht harg).1 hargument
  exact ⟨hargument, (axis_dimension ht ha).mono hx, shape, hx.get? hs⟩

namespace Checked

variable {checks : Checks}

/-- The names of the user are parameters, or lengths that are read off parameters. -/
theorem user_bound (ht : t.Sound) (harg : t.arguments = .ok arguments)
    (h : Checked p.table (declaredShapes t arguments) checks) {name : String} (hn : t.User name) :
    name ∈ arguments ∨ name ∈ checks.assigned := by
  by_cases hsizes : t.Sizes name
  · obtain ⟨named, compared, hsplit, hs⟩ := h.surveys
    obtain ⟨a, ha, hlength⟩ := (sizes_iff ht harg).1 hsizes
    refine .inr ?_
    rcases (hsplit a).1 ha with hmem | hmem
    · exact (hs.assigned name).2 (hlength ▸ List.mem_map_of_mem hmem)
    · exact hs.covered a hmem name hlength
  · exact .inl ((mem_arguments ht harg).2 ⟨hn, hsizes⟩)

theorem lists_ranks (ht : t.Sound) (harg : t.arguments = .ok arguments) (hx : Extends t p.table)
    (h : Checked p.table (declaredShapes t arguments) checks)
    (hS : ∀ name ∈ globals ++ arguments, S name) :
    ∃ ss, Lists p S (guardAll .dimension checks.ranks) ss := by
  have hglobal : ∀ name ∈ globals, S name := fun name hn => hS name (List.mem_append_left _ hn)
  refine lists_guardAll _ (hglobal _ (by decide)) fun e he => ?_
  obtain ⟨⟨name, shape⟩, hmem, hcheck⟩ := exists_of_mem_right h.ranks.flip he
  obtain ⟨hn, -⟩ := mem_declaredShapes.1 hmem
  obtain ⟨⟨-, shape', hget⟩, -⟩ := (mem_arguments ht harg).1 hn
  exact hcheck.prints (hx.get? hget) (hglobal _ (by decide)) (hS name (List.mem_append_right _ hn))

theorem lists_assigned (ht : t.Sound) (harg : t.arguments = .ok arguments) (hx : Extends t p.table)
    (h : Checked p.table (declaredShapes t arguments) checks)
    (hS : ∀ name ∈ globals ++ arguments, S name) :
    ∃ ss, Lists p S checks.assignments ss ∧
      ∀ name ∈ checks.assigned, name ∈ ss.flatMap Statement.binds := by
  obtain ⟨named, compared, hsplit, hs⟩ := h.surveys
  obtain ⟨ss, hss, hbinds⟩ := lists_assignments (S := S) hs.assignments fun a ha => by
    obtain ⟨hmem, hdim, hget⟩ := axis_parameter ht harg hx ((hsplit a).2 (.inl ha))
    exact ⟨hdim, hS _ (List.mem_append_right _ hmem), hget⟩
  refine ⟨ss, hss, fun name hn => ?_⟩
  obtain ⟨a, ha, hlength⟩ := List.mem_map.1 ((hs.assigned name).1 hn)
  exact hbinds a ha name hlength

theorem lists_lengths (ht : t.Sound) (harg : t.arguments = .ok arguments) (hx : Extends t p.table)
    (h : Checked p.table (declaredShapes t arguments) checks)
    (hS : ∀ name ∈ globals ++ arguments, S name) (hassigned : ∀ name ∈ checks.assigned, S name) :
    ∃ ss, Lists p S (guardAll .shape checks.lengths) ss := by
  obtain ⟨named, compared, hsplit, hs⟩ := h.surveys
  refine lists_guardAll _ (hS _ (List.mem_append_left _ (by decide))) fun e he => ?_
  obtain ⟨a, ha, hcheck⟩ := exists_of_mem_right hs.lengths.flip he
  obtain ⟨hmem, -, shape', hget⟩ := axis_parameter ht harg hx ((hsplit a).2 (.inr ha))
  exact hcheck.prints hget (hS _ (List.mem_append_right _ hmem)) fun name hn =>
    hassigned name (hs.covered a ha name hn)

end Checked

/-- The guard of the expression compares dimensions, which are names of the user. -/
theorem lists_domain (hx : Extends t p.table) {domain : Option Expr} {ds : List Check}
    (hguards : GuardsAll t domain.toList ds) (hds : ∀ d ∈ ds, d.Within t)
    (hexception : S "Exception") (huser : ∀ name, t.User name → S name) :
    ∃ ss, Lists p S (domain.map (guard .incompatibleShape)).toList ss := by
  cases domain with
  | none => exact ⟨[], .nil⟩
  | some g =>
    cases hguards with
    | cons hg =>
      refine lists_guard _ hexception ((hg.mono hx).prints fun d hd name hn => huser name ?_)
      obtain ⟨hl, hr⟩ := hds d (List.mem_append_left _ hd)
      rcases hn with hn | hn
      · exact (hn ▸ hl : t.Dimension (.named name)).user
      · exact (hn ▸ hr : t.Dimension (.named name)).user

/-- **The opening is written and closed.** After it all names of the user are bound. -/
theorem Checked.emits (ht : t.Sound) (hx : Extends t p.table) (harg : t.arguments = .ok arguments)
    {checks : Checks} (h : Checked p.table (declaredShapes t arguments) checks)
    {domain : Option Expr} {ds : List Check} (hguards : GuardsAll t domain.toList ds)
    (hds : ∀ d ∈ ds, d.Within t) (guards : Bool) {scope : List String}
    (hscope : ∀ name ∈ globals ++ arguments, name ∈ scope) :
    ∃ ss, List.Forall₂ (Emits p) (preamble guards checks domain) ss ∧
      (∀ name, t.User name → name ∈ scope ++ ss.flatMap Statement.binds) ∧
      (p.literals = true → Closed scope ss) := by
  obtain ⟨ssA, hA, hassigned⟩ := h.lists_assigned ht harg hx hscope
  have huser : ∀ name, t.User name → name ∈ scope ++ ssA.flatMap Statement.binds := by
    intro name hn
    rcases h.user_bound ht harg hn with hn | hn
    · exact List.mem_append_left _ (hscope name (List.mem_append_right _ hn))
    · exact List.mem_append_right _ (hassigned name hn)
  cases guards with
  | false => exact ⟨ssA, hA.emits, huser, fun hlit => hA.closed hlit fun _ => id⟩
  | true =>
    -- the guards before the lengths are read mention parameters only, those after it all names
    let S (name : String) : Prop := name ∈ scope ++ ssA.flatMap Statement.binds
    have hS : ∀ name ∈ globals ++ arguments, S name :=
      fun name hn => List.mem_append_left _ (hscope name hn)
    obtain ⟨ssR, hR⟩ := h.lists_ranks ht harg hx hscope
    obtain ⟨ssL, hL⟩ := h.lists_lengths (S := S) ht harg hx hS
      fun name hn => List.mem_append_right _ (hassigned name hn)
    obtain ⟨ssD, hD⟩ := lists_domain (S := S) hx hguards hds
      (hS _ (List.mem_append_left _ (by decide))) huser
    have hlater : ∀ {before after : List Statement} {name}, S name →
        name ∈ scope ++ (before ++ ssA ++ after).flatMap Statement.binds := by
      intro before after name hn
      rcases List.mem_append.1 hn with hn | hn
      · exact List.mem_append_left _ hn
      · simp only [List.flatMap_append, List.mem_append]
        exact .inr (.inl (.inr hn))
    refine ⟨ssR ++ ssA ++ (ssL ++ ssD), ?_, fun name hn => hlater (huser name hn), fun hlit => ?_⟩
    · rw [preamble, if_pos rfl, List.append_assoc _ _ (Option.toList _)]
      exact List.rel_append (List.rel_append hR.emits hA.emits) (List.rel_append hL.emits hD.emits)
    · rw [closed_append, closed_append]
      refine ⟨⟨hR.closed hlit fun _ => id, hA.closed hlit fun _ => List.mem_append_left _⟩, ?_⟩
      refine (hL.append hD).closed hlit fun name hn => ?_
      exact List.append_nil (ssR ++ ssA) ▸ hlater hn

end

/-! ## The loops -/

theorem names_rangeOf {bound : Element} (hd : p.table.Dimension bound) (hrange : S "range")
    (hbound : ∀ name, bound = .named name → S name) :
    ∀ name ∈ (p.rangeOf (.int 0) bound (.int 1)).names, S name := by
  intro name hn
  simp only [Range.names, rangeOf, atom_int, Atom.names, List.nil_append, List.append_nil,
    List.mem_cons] at hn
  rcases hn with rfl | hn
  · exact hrange
  · exact hbound name (names_dimension hd hn)

/-- **Loops are written**, and bind their indices for the statement inside. -/
theorem Nested.emits {shape : Shape} {body nest : Expr} {indices : List String} {inner : Statement}
    (h : Nested p.table shape body indices nest) (hbody : Emits p body inner)
    (hrange : S "range") (hindices : ∀ index ∈ indices, ∃ bound,
      p.table.get? index = some (.index bound) ∧ p.table.Dimension bound ∧
        ∀ name, bound = .named name → S name)
    (hnames : p.literals = true → ∀ name ∈ inner.names, name ∈ indices ∨ S name) :
    ∃ s, Lists p S [nest] [s] := by
  induction h generalizing S with
  | nil =>
    refine ⟨inner, .cons hbody .nil, fun hlit => List.forall_mem_singleton.2 fun name hn => ?_⟩
    exact (hnames hlit name hn).resolve_left (by simp)
  | @cons index rest symbol start stop step nest hget hvalue _ ih =>
    rw [List.forall_mem_cons] at hindices
    obtain ⟨⟨bound, hget', hdim, hbound⟩, hrest⟩ := hindices
    cases hget.symm.trans hget'
    cases hvalue
    obtain ⟨s, hs⟩ := ih (S := fun name => name = index ∨ S name) (.inr hrange)
      (fun i hi => by
        obtain ⟨bound', hget, hdim, hbound'⟩ := hrest i hi
        exact ⟨bound', hget, hdim, fun name hn => .inr (hbound' name hn)⟩)
      (fun hlit name hn => by
        rcases hnames hlit name hn with hn | hn
        · rcases List.mem_cons.1 hn with rfl | hn
          · exact .inr (.inl rfl)
          · exact .inl hn
        · exact .inr (.inr hn))
    obtain ⟨hemits, -⟩ := List.forall₂_cons.1 hs.emits
    refine ⟨_, .cons hemits.loop .nil, fun hlit => List.forall_mem_singleton.2
      (List.forall_mem_append.2 ⟨names_rangeOf hdim hrange hbound, fun name hn => ?_⟩)⟩
    obtain ⟨hn, hne⟩ := List.mem_filter.1 hn
    exact (hs.names hlit s (.head _) name hn).resolve_left (by simpa using hne)

/-- The result is allocated, if it is not an array of the user. -/
theorem Lowers.allocates {guards : Bool} {c f : Context} {parts : Parts}
    (h : Lowers guards c parts f) (hnumpy : S "numpy")
    (hshape : ∀ x ∈ parts.shape, p.table.Dimension x ∧ ∀ name, x = .named name → S name) :
    ∃ ss, Lists p S parts.allocation ss ∧
      (c.consequent.op ≠ .assign → parts.result ∈ ss.flatMap Statement.binds) := by
  cases h.target with
  | own hop hnil =>
    rw [hnil]
    exact ⟨[], .nil, fun hne => absurd hop hne⟩
  | fresh _ hstore =>
    rw [(store_ok hstore).allocation]
    refine ⟨_, ⟨.cons (.allocate _ _) .nil, fun _ => List.forall_mem_singleton.2 ?_⟩, fun _ => ?_⟩
    · refine List.forall_mem_cons.2 ⟨hnumpy, fun name hn => ?_⟩
      obtain ⟨a, ha, hn⟩ := List.mem_flatMap.1 hn
      obtain ⟨x, hx, rfl⟩ := List.mem_map.1 ha
      obtain ⟨hdim, hS⟩ := hshape x hx
      exact hS name (names_dimension hdim hn)
    · exact List.mem_flatMap.2 ⟨_, .head _, .head _⟩

end LoopNest

end PsiCalculus
