import PsiCalculus.Expr.Names
import PsiCalculus.LoopNest.Names
import PsiCalculus.Proofs.Source

/-!
# Tables in the course of compilation

The stages after parsing enter four kinds of symbols, and `SymbolTable.Sound` says that a table holds
nothing else: arrays of the user, vectors (of literals and of indices), integer constants, and
indices. The elements of their shapes and values are integers, scalars of the user, or indices that
the table has. `Grows t t'` is growth by generated names that keeps a table sound.

`Expr.Known t e` says that the table has every name that the nodes of the tree carry.
-/

namespace PsiCalculus

namespace SymbolTable

/-- The name of an index. -/
def IndexElement (t : SymbolTable) (e : Element) : Prop :=
  ∃ name bound, e = .named name ∧ t.get? name = some (.index bound)

theorem IndexElement.mono {t t' : SymbolTable} (h : Extends t t') {e : Element}
    (he : t.IndexElement e) : t'.IndexElement e := by
  obtain ⟨name, bound, rfl, hg⟩ := he
  exact ⟨name, bound, rfl, h.get? hg⟩

/-- What a table of a compilation says of a name. -/
inductive Entry (t : SymbolTable) (name : String) : Symbol → Prop
  | user {shape : Option Shape} : isGenerated name = false → (∀ e ∈ shape.getD [], t.Dimension e) →
      Entry t name (.array shape none)
  | vector {values : Shape} : isGenerated name = true →
      (∀ e ∈ values, t.Dimension e ∨ t.IndexElement e) →
      Entry t name (.array (some [.int values.length]) (some values))
  | constant {n : Int} : isGenerated name = true →
      Entry t name (.array (some []) (some [.int n]))
  | index {bound : Element} : isGenerated name = true → t.Dimension bound →
      Entry t name (.index bound)

theorem Entry.mono {t t' : SymbolTable} (h : Extends t t') {name : String} {s : Symbol}
    (he : t.Entry name s) : t'.Entry name s := by
  cases he with
  | user hu hs => exact .user hu fun e he => (hs e he).mono h
  | vector hg hv => exact .vector hg fun e he => (hv e he).imp (·.mono h) (·.mono h)
  | constant hg => exact .constant hg
  | index hg hb => exact .index hg (hb.mono h)

/-- A table of a compilation: one entry for each name, each of the four kinds. -/
structure Sound (t : SymbolTable) : Prop where
  nodup : t.names.Nodup
  entry : ∀ {name s}, t.get? name = some s → t.Entry name s

theorem Declared.sound {t : SymbolTable} (h : t.Declared) : t.Sound := by
  refine ⟨h.nodup, fun hget => ?_⟩
  cases h.entry hget with
  | user hu hs => exact .user hu hs
  | literal hg hv => exact .vector hg fun e he => .inl (hv e he)

theorem Sound.adds {t t' : SymbolTable} {name : String} {s : Symbol} (ht : t.Sound)
    (ha : Adds t name s t') (hs : t.Entry name s) : t'.Sound := by
  refine ⟨ha.nodup ht.nodup, fun {other s'} hget => ?_⟩
  by_cases hne : other = name
  · subst hne
    rw [ha.get?_self] at hget
    cases hget
    exact hs.mono ha.grows
  · rw [ha.get?_other hne] at hget
    exact (ht.entry hget).mono ha.grows

/-- A value is made of dimensions and indices. -/
theorem Sound.value_element {t : SymbolTable} (ht : t.Sound) {name : String} {s : Symbol}
    {values : Shape} (hs : t.get? name = some s) (hv : s.value = some values) :
    ∀ e ∈ values, t.Dimension e ∨ t.IndexElement e := by
  cases ht.entry hs with
  | user => cases hv
  | vector _ he =>
    cases hv
    exact he
  | constant =>
    cases hv
    intro e he
    rw [List.mem_singleton.1 he]
    exact .inl (.inl ⟨_, rfl⟩)
  | index _ hb =>
    cases hv
    intro e he
    simp only [List.mem_cons, List.not_mem_nil, or_false] at he
    rcases he with rfl | rfl | rfl
    · exact .inl (.inl ⟨_, rfl⟩)
    · exact .inl hb
    · exact .inl (.inl ⟨_, rfl⟩)

/-- Elements that a table knows are known to a larger one. -/
theorem elements_mono {t t' : SymbolTable} {s : Shape} (hx : Extends t t')
    (hs : ∀ x ∈ s, t.Dimension x ∨ t.IndexElement x) : ∀ x ∈ s, t'.Dimension x ∨ t'.IndexElement x :=
  fun x hmem => (hs x hmem).imp (·.mono hx) (·.mono hx)

section
variable {t t' : SymbolTable} {k : String} {bound : Element} {s : Shape}

/-- The elements of a vector with a new index in front. -/
theorem Adds.elements_cons (hk : Adds t k (.index bound) t')
    (hs : ∀ x ∈ s, t.Dimension x ∨ t.IndexElement x) :
    ∀ x ∈ .named k :: s, t'.Dimension x ∨ t'.IndexElement x :=
  List.forall_mem_cons.2 ⟨.inr ⟨k, bound, rfl, hk.get?_self⟩, elements_mono hk.grows hs⟩

/-- The elements of a vector that is cut in two, with a new index at the cut of both parts. -/
theorem Adds.elements_cut (hk : Adds t k (.index bound) t')
    (hs : ∀ x ∈ s, t.Dimension x ∨ t.IndexElement x) (n : Nat) :
    (∀ x ∈ s.take n ++ [.named k], t'.Dimension x ∨ t'.IndexElement x) ∧
      ∀ x ∈ .named k :: s.drop n, t'.Dimension x ∨ t'.IndexElement x := by
  refine ⟨fun x hx => hk.elements_cons hs x ?_,
    hk.elements_cons fun x hx => hs x (List.mem_of_mem_drop hx)⟩
  rcases List.mem_append.1 hx with hx | hx
  · exact .tail _ (List.mem_of_mem_take hx)
  · exact List.mem_singleton.1 hx ▸ .head _

end

/-- The shape of a user's array is made of dimensions. -/
theorem Sound.shape_element {t : SymbolTable} (ht : t.Sound) {name : String} {s : Symbol}
    {shape : Shape} (hs : t.get? name = some s) (hsh : s.shape = some shape) :
    ∀ e ∈ shape, t.Dimension e := by
  cases ht.entry hs with
  | user _ he =>
    cases hsh
    exact he
  | vector =>
    cases hsh
    intro e he
    exact .inl ⟨_, List.mem_singleton.1 he⟩
  | constant | index =>
    cases hsh
    intro e he
    cases he

/-- Growth by generated names that keeps a table sound. -/
structure Grows (t t' : SymbolTable) : Prop where
  entries : Extends t t'
  sound : t.Sound → t'.Sound
  users : ∀ name, isGenerated name = false → t'.get? name = t.get? name

theorem Grows.refl (t : SymbolTable) : Grows t t := ⟨.refl t, id, fun _ _ => rfl⟩

theorem Grows.trans {t₁ t₂ t₃ : SymbolTable} (h₁ : Grows t₁ t₂) (h₂ : Grows t₂ t₃) : Grows t₁ t₃ :=
  ⟨h₁.entries.trans h₂.entries, h₂.sound ∘ h₁.sound,
    fun name hn => (h₂.users name hn).trans (h₁.users name hn)⟩

theorem Adds.sound_grows {t t' : SymbolTable} {name : String} {s : Symbol} (ha : Adds t name s t')
    (hn : isGenerated name = true) (hs : t.Sound → t.Entry name s) : Grows t t' := by
  refine ⟨ha.grows, fun ht => ht.adds ha (hs ht), fun other ho => ha.get?_other ?_⟩
  rintro rfl
  simp [hn] at ho

/-! ## Indices -/

section
variable {t t' : SymbolTable}

theorem Extends.get?_eq (h : Extends t t') {name : String} (hn : name ∈ t.names) :
    t'.get? name = t.get? name := by
  cases hs : t.get? name with
  | none => exact absurd hn (get?_eq_none_iff.1 hs)
  | some s => exact h.get? hs

theorem isIndex_iff {name : String} :
    t.isIndex name = true ↔ ∃ s, t.get? name = some s ∧ s.kind = .index := by
  rw [isIndex, Option.any_eq_true]
  simp

theorem Extends.isIndex (h : Extends t t') {name : String} (hi : t.isIndex name = true) :
    t'.isIndex name = true := by
  obtain ⟨s, hs, hk⟩ := isIndex_iff.1 hi
  exact isIndex_iff.2 ⟨s, h.get? hs, hk⟩

theorem Extends.isIndex_eq (h : Extends t t') {name : String} (hn : name ∈ t.names) :
    t'.isIndex name = t.isIndex name := by
  rw [SymbolTable.isIndex, SymbolTable.isIndex, h.get?_eq hn]

theorem mem_names_of_isIndex {name : String} (hi : t.isIndex name = true) : name ∈ t.names := by
  obtain ⟨s, hs, -⟩ := isIndex_iff.1 hi
  exact mem_names_of_get? hs

/-- A source declares no indices. -/
theorem Declared.not_index (h : t.Declared) (name : String) : t.isIndex name = false := by
  rw [Bool.eq_false_iff]
  intro hi
  obtain ⟨s, hs, hk⟩ := isIndex_iff.1 hi
  cases h.entry hs <;> cases hk

theorem Adds.isIndex_other {name : String} {s : Symbol} (h : Adds t name s t') {other : String}
    (hne : other ≠ name) : t'.isIndex other = t.isIndex other := by
  rw [SymbolTable.isIndex, SymbolTable.isIndex, h.get?_other hne]

theorem Adds.isIndex_array {name : String} {s : Symbol} (h : Adds t name s t')
    (hk : s.kind = .array) {other : String} (hi : t'.isIndex other = true) :
    t.isIndex other = true := by
  by_cases hne : other = name
  · subst hne
    obtain ⟨s', hs', hk'⟩ := isIndex_iff.1 hi
    rw [h.get?_self] at hs'
    cases hs'
    rw [hk] at hk'
    cases hk'
  · rwa [h.isIndex_other hne] at hi

end

/-- Growth by arrays only, under the next generated names. -/
structure GrowsArrays (t t' : SymbolTable) : Prop where
  grows : Grows t t'
  counted : t.Counted → t'.Counted
  isIndex : ∀ {name}, t'.isIndex name = true → t.isIndex name = true

theorem GrowsArrays.refl (t : SymbolTable) : GrowsArrays t t := ⟨.refl t, id, id⟩

theorem GrowsArrays.trans {t₁ t₂ t₃ : SymbolTable} (h₁ : GrowsArrays t₁ t₂)
    (h₂ : GrowsArrays t₂ t₃) : GrowsArrays t₁ t₃ :=
  ⟨h₁.grows.trans h₂.grows, h₂.counted ∘ h₁.counted, fun hi => h₁.isIndex (h₂.isIndex hi)⟩

theorem Adds.grows_arrays {t t' : SymbolTable} {name : String} {s : Symbol} (ha : Adds t name s t')
    (hn : isGenerated name = true) (hs : t.Sound → t.Entry name s) (hk : s.kind = .array)
    (hc : t.Counted → t'.Counted) : GrowsArrays t t' :=
  ⟨ha.sound_grows hn hs, hc, ha.isIndex_array hk⟩

end SymbolTable

/-- The symbol of a vector literal. -/
abbrev Symbol.literal (values : Shape) : Symbol :=
  .array (some [.int values.length]) (some values)

theorem SymbolTable.Sound.literal_element {t : SymbolTable} (ht : t.Sound) {name : String}
    {values : Shape} (hs : t.get? name = some (.literal values)) :
    ∀ x ∈ values, t.Dimension x ∨ t.IndexElement x := ht.value_element hs rfl

/-! ## Names of trees -/

open SymbolTable

mutual

/-- The names that the nodes of a tree carry, parents first. -/
def Expr.mentions : Expr → List String
  | .node _ _ payload children => payload.names ++ Expr.mentionsAll children
termination_by structural e => e

/-- The names that the nodes of several trees carry. -/
def Expr.mentionsAll : List Expr → List String
  | [] => []
  | c :: cs => c.mentions ++ Expr.mentionsAll cs
termination_by structural cs => cs

end

/-- The table has every name that the nodes of the tree carry. -/
def Expr.Known (t : SymbolTable) (e : Expr) : Prop := ∀ name ∈ e.mentions, name ∈ t.names

section
variable {t t' : SymbolTable}

theorem Expr.mentionsAll_eq : ∀ es : List Expr, mentionsAll es = es.flatMap mentions
  | [] => rfl
  | e :: es => by rw [mentionsAll, mentionsAll_eq es, List.flatMap_cons]

theorem Expr.known_node {op : Operator} {shape : Option Shape} {payload : Payload}
    {children : List Expr} : (Expr.node op shape payload children).Known t ↔
      (∀ name ∈ payload.names, name ∈ t.names) ∧ ∀ c ∈ children, c.Known t := by
  unfold Known
  rw [mentions, mentionsAll_eq, List.forall_mem_append, List.forall_mem_flatMap]

theorem Expr.Known.child {op : Operator} {shape : Option Shape} {payload : Payload}
    {children : List Expr} (h : (Expr.node op shape payload children).Known t) :
    ∀ c ∈ children, c.Known t := (known_node.1 h).2

theorem Expr.Known.name {op : Operator} {shape : Option Shape} {name : String}
    {children : List Expr} (h : (Expr.node op shape (.name name) children).Known t) :
    name ∈ t.names := (known_node.1 h).1 name (.head _)

theorem Expr.Known.array {name : String} (h : name ∈ t.names) (shape : Option Shape) :
    (Expr.array name shape).Known t :=
  known_node.2 ⟨List.forall_mem_singleton.2 h, by simp⟩

theorem Expr.Known.unary {op : Operator} {shape : Option Shape} {e : Expr} (h : e.Known t) :
    (Expr.unary op shape e).Known t :=
  known_node.2 ⟨by simp [Payload.names], List.forall_mem_singleton.2 h⟩

theorem Expr.Known.binary {op : Operator} {shape : Option Shape} {l r : Expr} (hl : l.Known t)
    (hr : r.Known t) : (Expr.binary op shape l r).Known t :=
  known_node.2 ⟨by simp [Payload.names], List.forall_mem_cons.2 ⟨hl, List.forall_mem_singleton.2 hr⟩⟩

theorem Expr.Known.named {op : Operator} {shape : Option Shape} {k : String} {e : Expr}
    (hk : k ∈ t.names) (he : e.Known t) : (Expr.node op shape (.name k) [e]).Known t :=
  known_node.2 ⟨List.forall_mem_singleton.2 hk, List.forall_mem_singleton.2 he⟩

theorem Expr.Known.mono (h : Extends t t') {e : Expr} (he : e.Known t) : e.Known t' :=
  fun n hn => h.mem_names (he n hn)

theorem Expr.Known.arrayName {e : Expr} (h : e.Known t) {name : String}
    (hn : e.arrayName? = some name) : name ∈ t.names := by
  obtain ⟨op, shape, payload, children⟩ := e
  unfold Expr.arrayName? Expr.name? at hn
  split at hn
  · cases payload with
    | name => cases hn; exact h.name
    | none | raise | function | loop => cases hn
  · cases hn

end

end PsiCalculus
