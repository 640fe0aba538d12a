import PsiCalculus.Proofs.Grammar.Acceptance
import PsiCalculus.Proofs.Grammar.Spelling

/-!
# Contexts as sources

`Context.source` writes the tree of a context with what the table knows of its leaves: a name of the
user with its shape, a vector literal with its values. A context that comes from a source comes from
this one, too (`Context.parse_source`): the same tree, and the same table with its entries in the same
order, so that fresh names are the same.

The reason is that the phrase of the tree (`Expr.phrase`) differs from the phrase that was read only
where a name stands by itself whose shape is known. Then it was declared before, with the names in its
shape, so that declaring it again changes nothing (`Phrase.build_restated`).
-/

namespace PsiCalculus

open SymbolTable Grammar

/-! ## The source of a context -/

/-- A leaf as a phrase, with what the table knows of it. -/
def SymbolTable.leaf (t : SymbolTable) (name : String) : Phrase :=
  match t.get? name with
  | none => .name name
  | some s =>
    if isGenerated name then .vector (s.value.getD [])
    else match s.shape with
      | some shape => .declared name shape
      | none => .name name

mutual

/-- A tree of the grammar as a phrase. -/
def Expr.phrase (t : SymbolTable) : Expr → Phrase
  | .node op _ payload children =>
    match payload, Expr.phrases t children with
    | .name name, _ => t.leaf name
    | _, [operand] => .unary op operand
    | _, [left, right] => .binary op left right
    -- no other node stands in a tree of the grammar
    | _, _ => .vector []
termination_by structural e => e

/-- Several trees of the grammar as phrases. -/
def Expr.phrases (t : SymbolTable) : List Expr → List Phrase
  | [] => []
  | c :: cs => c.phrase t :: Expr.phrases t cs
termination_by structural cs => cs

end

/-- A context of the grammar as a source. -/
def Context.source (c : Context) : String :=
  (c.tree.phrase c.table).source

@[simp] theorem Expr.phrase_array (t : SymbolTable) (name : String) (shape : Option Shape) :
    (Expr.array name shape).phrase t = t.leaf name := rfl

@[simp] theorem Expr.phrase_unary (t : SymbolTable) (op : Operator) (shape : Option Shape) (e : Expr) :
    (Expr.unary op shape e).phrase t = .unary op (e.phrase t) := rfl

@[simp] theorem Expr.phrase_binary (t : SymbolTable) (op : Operator) (shape : Option Shape)
    (l r : Expr) : (Expr.binary op shape l r).phrase t = .binary op (l.phrase t) (r.phrase t) := rfl

namespace SymbolTable

variable {t : SymbolTable} {name : String}

theorem leaf_bare (hu : isGenerated name = false) (h : t.get? name = some (.array none none)) :
    t.leaf name = .name name := by
  simp [leaf, h, hu, Symbol.array]

theorem leaf_shaped {shape : Shape} (hu : isGenerated name = false)
    (h : t.get? name = some (.array (some shape) none)) : t.leaf name = .declared name shape := by
  simp [leaf, h, hu, Symbol.array]

theorem leaf_generated {shape : Option Shape} {values : Shape} (hg : isGenerated name = true)
    (h : t.get? name = some (.array shape (some values))) : t.leaf name = .vector values := by
  simp [leaf, h, hg, Symbol.array]

end SymbolTable

/-! ## Declarations that are repeated -/

/-- The names in declared shapes are declared, and all can be written. -/
structure Declarations.Closed (ds : Declarations) : Prop where
  scalars : ∀ {name shape}, (name, some shape) ∈ ds → ∀ d ∈ shape.declarations, d ∈ ds
  word : ∀ {name shape}, (name, shape) ∈ ds → IsWord name
  regular : ∀ {name shape}, (name, some shape) ∈ ds → ∀ e ∈ shape, e.Regular

theorem Declarations.Closed.append {ds ds' : Declarations} (h : ds.Closed) (h' : ds'.Closed) :
    (ds ++ ds').Closed where
  scalars hmem d hd := (List.mem_append.1 hmem).elim
    (fun hmem => List.mem_append_left _ (h.scalars hmem d hd))
    (fun hmem => List.mem_append_right _ (h'.scalars hmem d hd))
  word hmem := (List.mem_append.1 hmem).elim h.word h'.word
  regular hmem := (List.mem_append.1 hmem).elim h.regular h'.regular

theorem Shape.closed_declarations {elements : Shape} (h : ∀ e ∈ elements, e.Regular) :
    elements.declarations.Closed := by
  have hmem : ∀ {name shape}, (name, shape) ∈ elements.declarations →
      shape = some [] ∧ IsWord name := by
    intro name shape hmem
    obtain ⟨n, hn, heq⟩ := List.mem_map.1 hmem
    cases heq
    obtain ⟨e, he, hname⟩ := List.mem_filterMap.1 hn
    refine ⟨rfl, ?_⟩
    obtain ⟨m, rfl, -⟩ | ⟨m, rfl, hm⟩ := h e he
    · cases hname
    · cases hname
      exact hm
  refine ⟨fun hd => ?_, fun hd => (hmem hd).2, fun hd => ?_⟩
  · cases (hmem hd).1
    simp [Shape.declarations, Shape.names]
  · cases (hmem hd).1
    simp

theorem Phrase.Regular.closed {p : Phrase} (h : p.Regular) : p.declarations.Closed := by
  induction p with
  | name n =>
    refine ⟨by simp [declarations], fun hmem => ?_, by simp [declarations]⟩
    cases List.mem_singleton.1 hmem
    exact h
  | declared n shape =>
    have hscalars := Shape.closed_declarations h.2
    refine ⟨fun hmem d hd => ?_, fun hmem => ?_, fun hmem => ?_⟩
    · rcases List.mem_append.1 hmem with hmem | hmem
      · exact List.mem_append_left _ (hscalars.scalars hmem d hd)
      · cases List.mem_singleton.1 hmem
        exact List.mem_append_left _ hd
    · rcases List.mem_append.1 hmem with hmem | hmem
      · exact hscalars.word hmem
      · cases List.mem_singleton.1 hmem
        exact h.1
    · rcases List.mem_append.1 hmem with hmem | hmem
      · exact hscalars.regular hmem
      · cases List.mem_singleton.1 hmem
        exact h.2
  | vector values => exact Shape.closed_declarations h
  | unary op p ih => exact ih h.2
  | binary op l r ihl ihr => exact (ihl h.2.1).append (ihr h.2.2)

namespace SymbolTable

variable {ds : Declarations} {t t' : SymbolTable}

/-- The table holds the declarations, every one with the shape it gives. -/
structure Settled (ds : Declarations) (t : SymbolTable) : Prop where
  represents : t.Represents ds
  stated : ∀ {name shape}, (name, some shape) ∈ ds → t.get? name = some (.array (some shape) none)
  closed : ds.Closed

theorem Settled.empty : Settled [] empty :=
  ⟨.empty, by simp, by simp, by simp, by simp⟩

theorem Settled.build {p : Phrase} {e : Expr} (hs : t.Settled ds) (hp : p.Regular)
    (h : p.build t = .ok (e, t')) : t'.Settled (ds ++ p.declarations) := by
  obtain ⟨hg, hr, hstated⟩ := p.build_ok hs.represents h
  refine ⟨hr, fun hmem => ?_, hs.closed.append hp.closed⟩
  rcases List.mem_append.1 hmem with hmem | hmem
  · exact hg.get? (hs.stated hmem)
  · exact hstated _ _ hmem

/-- Declarations that a table holds change nothing. -/
theorem enterAll_of_stated (ds' : Declarations)
    (h : ∀ d ∈ ds', ∃ shape, d.2 = some shape ∧ t.get? d.1 = some (.array (some shape) none)) :
    t.enterAll ds' = .ok t := by
  induction ds' with
  | nil => rfl
  | cons d ds' ih =>
    obtain ⟨name, shape⟩ := d
    obtain ⟨shape, rfl, hget⟩ := h _ (.head _)
    rw [enterAll, enter, insert_of_get?_eq_some hget]
    exact ih fun d hd => h d (.tail _ hd)

/-- A name that is declared with its shape can be declared so again. -/
theorem Settled.build_declared {name : String} {shape : Shape} (hs : t.Settled ds)
    (hmem : (name, some shape) ∈ ds) :
    (Phrase.declared name shape).build t = .ok (.array name none, t) := by
  have hscalars : t.enterAll shape.declarations = .ok t := by
    refine enterAll_of_stated _ fun d hd => ?_
    obtain ⟨n, -, rfl⟩ := List.mem_map.1 hd
    exact ⟨[], rfl, hs.stated (hs.closed.scalars hmem _ hd)⟩
  rw [Phrase.build, hscalars]
  show (t.enter (name, some shape) >>= fun t => _) = _
  rw [enter, insert_of_get?_eq_some (hs.stated hmem)]
  rfl

end SymbolTable

/-- What the table says of a name that stands by itself can be declared in its place. -/
theorem SymbolTable.Settled.build_leaf {n : String} (hn : IsWord n) {ds : Declarations}
    {t₀ t₁ t : SymbolTable} (hs : t₀.Settled ds) (h : t₀.enter (n, none) = .ok t₁)
    (hg : Extends t₁ t) :
    (t.leaf n).build t₀ = .ok (.array n none, t₁) ∧ (t.leaf n).Regular := by
  have hbuild : (Phrase.name n).build t₀ = .ok (.array n none, t₁) := by
    rw [Phrase.build, h]
    rfl
  have hget := (hs.represents.enter h) n hn.user
  rw [List.lookup_append] at hget
  cases hknown : ds.lookup n with
  | none =>
    rw [hknown] at hget
    rw [leaf_bare hn.user (hg.get? (by simpa using hget))]
    exact ⟨hbuild, hn⟩
  | some shape =>
    rw [hknown, Option.some_or, Option.map_some] at hget
    cases shape with
    | none =>
      rw [leaf_bare hn.user (hg.get? hget)]
      exact ⟨hbuild, hn⟩
    | some shape =>
      -- the name was declared before, so that nothing is entered
      have hmem : (n, some shape) ∈ ds := by
        obtain ⟨l₁, l₂, hl, -⟩ := List.lookup_eq_some_iff.1 hknown
        simp [hl]
      have hcontains : t₀.contains n = true := contains_iff.2 ⟨_, hs.stated hmem⟩
      rw [enter, if_pos hcontains] at h
      cases h
      rw [leaf_shaped hn.user (hg.get? hget)]
      exact ⟨hs.build_declared hmem, hn, hs.closed.regular hmem⟩

/-- **The phrase of the tree that is built builds the same tree and table again.** -/
theorem Phrase.build_restated {p : Phrase} (hp : p.Regular) {ds : Declarations}
    {t₀ t₁ t : SymbolTable} {e : Expr} (hs : t₀.Settled ds) (h : p.build t₀ = .ok (e, t₁))
    (hg : Extends t₁ t) : (e.phrase t).build t₀ = .ok (e, t₁) ∧ (e.phrase t).Regular := by
  induction p generalizing ds t₀ t₁ e with
  | name n =>
    obtain ⟨t', henter, h⟩ := except_bind_ok.1 h
    cases h
    exact hs.build_leaf hp henter hg
  | declared n shape =>
    have hbuild := h
    obtain ⟨t', -, h⟩ := except_bind_ok.1 h
    obtain ⟨t'', henter, h⟩ := except_bind_ok.1 h
    cases h
    rw [Expr.phrase_array, leaf_shaped (IsWord.user hp.1) (hg.get? (enter_stated henter))]
    exact ⟨hbuild, hp⟩
  | vector values =>
    have hbuild := h
    obtain ⟨t', -, h⟩ := except_bind_ok.1 h
    obtain ⟨⟨n, t''⟩, hfresh, h⟩ := except_bind_ok.1 h
    cases h
    obtain ⟨hn, hadds⟩ := Grow.fresh_ok hfresh
    rw [Expr.phrase_array, leaf_generated hn (hg.get? hadds.get?_self)]
    exact ⟨hbuild, hp⟩
  | unary op p ih =>
    obtain ⟨⟨e₁, t'⟩, h₁, h⟩ := except_bind_ok.1 h
    cases h
    obtain ⟨hbuild, hregular⟩ := ih hp.2 hs h₁ hg
    rw [Expr.phrase_unary, build, hbuild]
    exact ⟨rfl, hp.1, hregular⟩
  | binary op l r ihl ihr =>
    obtain ⟨⟨e₁, t'⟩, h₁, h⟩ := except_bind_ok.1 h
    obtain ⟨⟨e₂, t''⟩, h₂, h⟩ := except_bind_ok.1 h
    cases h
    have hs₁ := hs.build hp.2.1 h₁
    obtain ⟨hleft, hregular₁⟩ := ihl hp.2.1 hs h₁ ((r.build_ok hs₁.represents h₂).1.trans hg)
    obtain ⟨hright, hregular₂⟩ := ihr hp.2.2 hs₁ h₂ hg
    rw [Expr.phrase_binary, build, hleft]
    show (build t' (e₂.phrase t) >>= _) = _ ∧ _
    rw [hright]
    exact ⟨rfl, hp.1, hregular₁, hregular₂⟩

/-- A context that comes from a source is built from a phrase that can be written. -/
theorem Context.exists_phrase {source : String} {c : Context} (h : Context.parse source = .ok c) :
    ∃ p : Phrase, p.Regular ∧ p.build .empty = .ok (c.tree, c.table) := by
  obtain ⟨spanned, hscan, -⟩ := except_bind_ok.1 h
  obtain ⟨p, hp⟩ := (derivable_of_parse hscan h).exists_farthest
  refine ⟨p, hp.regular fun t ht => ?_, build_of_parse hscan h hp⟩
  obtain ⟨s, hs, rfl⟩ := List.mem_map.1 ht
  exact Token.scanFrom_regular 0 _ hscan s hs

/-- **A parsed context is the context of its own source.** -/
theorem Context.parse_source {source : String} {c : Context} (h : Context.parse source = .ok c) :
    Context.parse c.source = .ok c := by
  obtain ⟨p, hp, hbuild⟩ := Context.exists_phrase h
  obtain ⟨hbuild', hregular⟩ := Phrase.build_restated hp .empty hbuild (.refl c.table)
  -- the phrase of the tree is read back as it is
  obtain ⟨u, hspells, hderives⟩ := Phrase.spells hregular
  have hlexes := hspells [] [] (by simp [Ends]) .nil
  rw [List.append_nil, List.append_nil] at hlexes
  obtain ⟨spanned, hscan, rfl⟩ := hlexes 0
  have hparse := Context.parse_eq hscan (hderives []).expr.farthest
  rw [hbuild'] at hparse
  exact hparse

/-- A matrix, a literal and a name by itself whose shape is known. -/
theorem Context.parse_source_product : ∃ c,
    Context.parse "A^<2 n> +.* B - <1 n> cat A" = .ok c ∧
    c.source = "((A ^ <2 n> +.* (B - <1 n>)) cat A ^ <2 n>)" ∧
    Context.parse c.source = .ok c := by
  have hrun : (do
      let c ← Context.parse "A^<2 n> +.* B - <1 n> cat A"
      return c.source) = .ok "((A ^ <2 n> +.* (B - <1 n>)) cat A ^ <2 n>)" := by
    decide +kernel
  obtain ⟨c, hc, hsource⟩ := except_bind_ok.1 hrun
  exact ⟨c, hc, Except.ok.inj hsource, Context.parse_source hc⟩

end PsiCalculus
