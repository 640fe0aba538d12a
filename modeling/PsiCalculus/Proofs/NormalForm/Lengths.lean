import PsiCalculus.Proofs.Grammar.Acceptance
import PsiCalculus.Proofs.Progress.Descent

/-!
# Shapes that fit at run time

The lengths of two axes may be different elements of the table that a guard makes equal. Under a
condition `G` on valuations, usually that all checks of shape inference hold, such lengths are the
same (`Same G`), and an element of an index is below a length (`Within G t scope`) wherever `G` holds
and the indices in scope are in their ranges.

* `Accessed t X axes`: an array, its shape or its rank, where indices stop, with its axes.
* `Fits G t e axes`: the operands of a shaped tree of the fragment fit wherever `G` holds, and its
  literal indices are within the axes they are for.
* `Infers.fits`: a shaped tree of the fragment fits wherever its checks hold.
* `Context.parse_natural`: the integers of vector literals are not negative.
-/

namespace PsiCalculus

open SymbolTable

/-! ## Elements under a valuation -/

/-- A name of the user. -/
def Element.IsUser (x : Element) : Prop := ∃ name, x = .named name ∧ isGenerated name = false

/-- The number of the index is in the range that the table gives it. -/
def SymbolTable.Ranges (t : SymbolTable) (σ : String → Int) (k : String) : Prop :=
  ∀ bound, t.get? k = some (.index bound) → 0 ≤ σ k ∧ σ k < (Env.ofValuation σ).value bound

/-- The index is below the length, and not negative unless it is a name of the user. -/
def Element.Inside (σ : String → Int) (i n : Element) : Prop :=
  (Env.ofValuation σ).value i < (Env.ofValuation σ).value n ∧
    (0 ≤ (Env.ofValuation σ).value i ∨ i.IsUser)

section
variable {G : (String → Int) → Prop} {t t' : SymbolTable} {scope scope' : List String}
  {i m n : Element}

theorem SymbolTable.Ranges.of_extends (hx : Extends t t') {σ : String → Int} {k : String}
    (h : t'.Ranges σ k) : t.Ranges σ k := fun bound hk => h bound (hx.get? hk)

/-- The lengths have the same number wherever `G` holds. -/
def Same (G : (String → Int) → Prop) (m n : Element) : Prop :=
  ∀ σ, G σ → (Env.ofValuation σ).value m = (Env.ofValuation σ).value n

/-- The element is inside the axis wherever `G` holds and the indices in scope are in range. -/
def Within (G : (String → Int) → Prop) (t : SymbolTable) (scope : List String) (i n : Element) :
    Prop :=
  ∀ σ, G σ → (∀ k ∈ scope, t.Ranges σ k) → i.Inside σ n

theorem Within.mono (hx : Extends t t') (hscope : scope ⊆ scope') (h : Within G t scope i n) :
    Within G t' scope' i n :=
  fun σ hσ hk => h σ hσ fun k hmem => (hk k (hscope hmem)).of_extends hx

theorem Within.forall₂_mono {index axes : Shape} (hx : Extends t t') (hscope : scope ⊆ scope')
    (h : List.Forall₂ (Within G t scope) index axes) :
    List.Forall₂ (Within G t' scope') index axes :=
  h.imp fun _ _ h => h.mono hx hscope

theorem Within.same (h : Within G t scope i m) (hmn : Same G m n) : Within G t scope i n := by
  intro σ hσ hk
  obtain ⟨hlt, hnonneg⟩ := h σ hσ hk
  exact ⟨hmn σ hσ ▸ hlt, hnonneg⟩

theorem Within.forall₂_same {index a b : Shape} (h : List.Forall₂ (Within G t scope) index a)
    (hab : List.Forall₂ (Same G) a b) : List.Forall₂ (Within G t scope) index b := by
  induction h generalizing b with
  | nil =>
    cases hab
    exact .nil
  | cons hi _ ih =>
    cases hab with
    | cons hmn hab => exact .cons (hi.same hmn) (ih hab)

/-- An index in scope is within the length that bounds it. -/
theorem Within.index {k : String} (hget : t.get? k = some (.index n)) (hk : k ∈ scope) :
    Within G t scope (.named k) n := by
  intro σ _ hscope
  obtain ⟨hnonneg, hlt⟩ := hscope k hk n hget
  exact ⟨hlt, .inl hnonneg⟩

end

/-! ## Trees whose operands fit -/

/-- What indices stop at: an array, its shape, or its rank. -/
inductive Accessed (t : SymbolTable) : Expr → Shape → Prop
  | array {name : String} {symbol : Symbol} {axes : Shape} : t.get? name = some symbol →
      symbol.shape = some axes → Accessed t (.array name (some axes)) axes
  | shape {name : String} {symbol : Symbol} {a : Shape} : isGenerated name = false →
      t.get? name = some symbol → symbol.shape = some a →
      Accessed t (.unary .shape (some [.int a.length]) (.array name (some a))) [.int a.length]
  | dim {name : String} {symbol : Symbol} {a : Shape} : isGenerated name = false →
      t.get? name = some symbol → symbol.shape = some a →
      Accessed t (.unary .dim (some []) (.array name (some a))) []

/-- A shaped tree of the fragment with its axes: its operands fit wherever `G` holds. -/
inductive Fits (G : (String → Int) → Prop) (t : SymbolTable) : Expr → Shape → Prop
  | access {e : Expr} {axes : Shape} : Accessed t e axes → Fits G t e axes
  | transpose {e : Expr} {a : Shape} : Fits G t e a →
      Fits G t (.unary .transpose (some a.reverse) e) a.reverse
  | permute {p : String} {b : Option Shape} {values a placed : Shape} {targets : List Int}
      {e : Expr} : t.get? p = some (.literal values) → Shape.ints? values = some targets →
      targets.length = a.length → Shape.place? targets a = some placed → Fits G t e a →
      Fits G t (.binary .permute (some placed) (.array p b) e) placed
  | psi {v : String} {b : Option Shape} {values a a' : Shape} {e : Expr} :
      t.get? v = some (.literal values) → List.Forall₂ (Within G t []) values a →
      Fits G t e (a ++ a') → Fits G t (.binary .psi (some a') (.array v b) e) a'
  | arith {op : ArithOp} {l r : Expr} {a b s : Shape} : Fits G t l a → Fits G t r b →
      a = [] ∨ List.Forall₂ (Same G) s a → b = [] ∨ List.Forall₂ (Same G) s b →
      Fits G t (.binary (.arith op) (some s) l r) s
  | outer {op : ArithOp} {l r : Expr} {a b : Shape} : Fits G t l a → Fits G t r b →
      Fits G t (.binary (.outer op) (some (a ++ b)) l r) (a ++ b)
  | inner {fold join : ArithOp} {l r : Expr} {a b : Shape} {m n : Element} : Fits G t l (a ++ [m]) →
      Fits G t r (n :: b) → Same G m n →
      Fits G t (.binary (.inner fold join) (some (a ++ b)) l r) (a ++ b)
  | reduce {op : ArithOp} {e : Expr} {n : Element} {a : Shape} : Fits G t e (n :: a) →
      Fits G t (.unary (.reduce op) (some a) e) a

section
variable {G : (String → Int) → Prop} {t t' : SymbolTable} {e e' : Expr} {axes : Shape}

theorem Accessed.mono (hx : Extends t t') (h : Accessed t e axes) : Accessed t' e axes := by
  cases h with
  | array hget hshape => exact .array (hx.get? hget) hshape
  | shape hu hget hshape => exact .shape hu (hx.get? hget) hshape
  | dim hu hget hshape => exact .dim hu (hx.get? hget) hshape

theorem Accessed.simple (h : Accessed t e axes) : Simple e := by
  cases h with
  | array => exact .leaf
  | shape => exact .query (.inl rfl)
  | dim => exact .query (.inr rfl)

theorem Fits.mono (hx : Extends t t') (h : Fits G t e axes) : Fits G t' e axes := by
  induction h with
  | access ha => exact .access (ha.mono hx)
  | transpose _ ih => exact .transpose ih
  | permute hp hints hlen hplace _ ih => exact .permute (hx.get? hp) hints hlen hplace ih
  | psi hv hvalues _ ih =>
    exact .psi (hx.get? hv) (Within.forall₂_mono hx (List.Subset.refl _) hvalues) ih
  | arith _ _ hl hr ihl ihr => exact .arith ihl ihr hl hr
  | outer _ _ ihl ihr => exact .outer ihl ihr
  | inner _ _ hmn ihl ihr => exact .inner ihl ihr hmn
  | reduce _ ih => exact .reduce ih

theorem Fits.shape_eq (h : Fits G t e axes) : e.shape = some axes := by
  cases h with
  | access ha => cases ha <;> rfl
  | transpose | permute | psi | arith | outer | inner | reduce => rfl

/-- A tree where indices stop is an array, its shape, or its rank. -/
theorem Fits.accessed (h : Fits G t e axes) (hop : e.op.Stuck) : Accessed t e axes := by
  cases h with
  | access ha => exact ha
  | transpose | permute | psi | arith | outer | inner | reduce => cases hop

/-! ## Checks that hold -/

theorem forall₂_same : ∀ {s a : Shape}, s.length = a.length →
    (∀ σ, G σ → s.map (Env.ofValuation σ).value = a.map (Env.ofValuation σ).value) →
    List.Forall₂ (Same G) s a
  | [], [], _, _ => .nil
  | x :: s, y :: a, hlen, h => by
    refine .cons (fun σ hσ => ?_) (forall₂_same (Nat.succ.inj hlen) fun σ hσ => ?_)
    · exact (List.cons.inj (h σ hσ)).1
    · exact (List.cons.inj (h σ hσ)).2

/-- Shapes that are checked to agree are the same, and so is what is preferred. -/
theorem Same.of_agreement {l r : Shape} (hlen : l.length = r.length) (hl : ∀ x ∈ l, t.Dimension x)
    (hr : ∀ x ∈ r, t.Dimension x)
    (h : ∀ σ, G σ → ∀ c ∈ Shape.agreement l r, c.Holds (.ofValuation σ)) :
    List.Forall₂ (Same G) (List.zipWith Shape.prefer l r) l ∧
      List.Forall₂ (Same G) (List.zipWith Shape.prefer l r) r := by
  have htot : ∀ σ, (Env.ofValuation σ).Total := fun _ _ => rfl
  have hzip : (List.zipWith Shape.prefer l r).length = l.length := by
    rw [List.length_zipWith, hlen, Nat.min_self]
  refine ⟨forall₂_same hzip fun σ hσ => ?_, forall₂_same (hzip.trans hlen) fun σ hσ => ?_⟩
  · exact ((htot σ).agreement hlen hl hr (h σ hσ)).2
  · obtain ⟨hlr, hprefer⟩ := (htot σ).agreement hlen hl hr (h σ hσ)
    rw [hprefer, hlr]

/-- A literal index that is checked is within the axes that it is for. -/
theorem Within.of_bounds : ∀ {index shape : Shape}, index.length ≤ shape.length →
    (∀ x ∈ index, t.Dimension x ∧ ∀ n, x = .int n → 0 ≤ n) → (∀ x ∈ shape, t.Dimension x) →
    (∀ σ, G σ → ∀ c ∈ Shape.bounds index shape, c.Holds (.ofValuation σ)) →
    List.Forall₂ (Within G t []) index (shape.take index.length)
  | [], _, _, _, _, _ => .nil
  | i :: index, n :: shape, hlen, hindex, hshape, h => by
    obtain ⟨⟨hi, hnatural⟩, hindex⟩ := List.forall_mem_cons.1 hindex
    obtain ⟨hn, hshape⟩ := List.forall_mem_cons.1 hshape
    have hrest := of_bounds (Nat.le_of_succ_le_succ hlen) hindex hshape
      fun σ hσ c hc => h σ hσ c (.tail _ hc)
    refine .cons (fun σ hσ _ => ?_) hrest
    have htot : (Env.ofValuation σ).Total := fun _ => rfl
    have hlt := (Env.holds_iff htot hi hn).1 (h σ hσ ⟨.less, i, n⟩ (.head _))
    refine ⟨by simpa [CompareOp.holds] using hlt, ?_⟩
    obtain ⟨m, rfl⟩ | ⟨name, rfl, hu, -⟩ := hi
    · exact .inl (hnatural m rfl)
    · exact .inr ⟨name, rfl, hu⟩

end

/-- The integers of the table's literals are not negative. -/
def SymbolTable.Natural (t : SymbolTable) : Prop :=
  ∀ name values, t.get? name = some (.literal values) → ∀ n, .int n ∈ values → 0 ≤ n

section
variable {G : (String → Int) → Prop} {t : SymbolTable} {e e' : Expr} {cs : List Check}

theorem Fits.of_arith {op : ArithOp} {values : Option Shape} {l r : Expr} {a b s : Shape}
    {checks : List Check} (hlaw : BinaryLaw values (.arith op) a b s checks)
    (hda : ∀ x ∈ a, t.Dimension x) (hdb : ∀ x ∈ b, t.Dimension x)
    (hchecks : ∀ σ, G σ → ∀ c ∈ checks, c.Holds (.ofValuation σ)) (hl : Fits G t l a)
    (hr : Fits G t r b) : Fits G t (.binary (.arith op) (some s) l r) s := by
  cases hlaw with
  | scalarLeft => exact .arith hl hr (.inl rfl) (.inr (forall₂_same rfl fun _ _ => rfl))
  | scalarRight => exact .arith hl hr (.inr (forall₂_same rfl fun _ _ => rfl)) (.inl rfl)
  | pointwise _ _ hlen =>
    obtain ⟨hleft, hright⟩ := Same.of_agreement hlen hda hdb hchecks
    exact .arith hl hr (.inr hleft) (.inr hright)

theorem Fragment.fits (ht : t.Declared) (hnatural : t.Natural) {s : Shape} (h : Fragment t e s cs)
    (hchecks : ∀ σ, G σ → ∀ c ∈ cs, c.Holds (.ofValuation σ)) : Fits G t e s := by
  induction h with
  | leaf hget hshape => exact .access (.array hget hshape)
  | shape hu hget hshape => exact .access (.shape hu hget hshape)
  | dim hu hget hshape => exact .access (.dim hu hget hshape)
  | transpose _ ih => exact .transpose (ih hchecks)
  | reduce _ ih => exact .reduce (ih hchecks)
  | permute hp hints hlen hplaced _ ih => exact .permute hp hints hlen hplaced (ih hchecks)
  | @psi v a values _ _ _ hv hlen he ih =>
    simp only [List.forall_mem_append] at hchecks
    have hvalues : ∀ x ∈ values, t.Dimension x ∧ ∀ n, x = .int n → 0 ≤ n := fun x hx =>
      ⟨Meant.literal_dimension ht hv x hx, fun n hn => hnatural v values hv n (hn ▸ hx)⟩
    refine .psi hv (Within.of_bounds hlen hvalues (he.dimension ht) fun σ hσ => (hchecks σ hσ).2) ?_
    rw [List.take_append_drop]
    exact ih fun σ hσ => (hchecks σ hσ).1
  | arith hl hr hlaw ihl ihr =>
    simp only [List.forall_mem_append] at hchecks
    exact .of_arith hlaw (hl.dimension ht) (hr.dimension ht) (fun σ hσ => (hchecks σ hσ).2)
      (ihl fun σ hσ => (hchecks σ hσ).1.1) (ihr fun σ hσ => (hchecks σ hσ).1.2)
  | outer _ _ ihl ihr =>
    simp only [List.forall_mem_append] at hchecks
    exact .outer (ihl fun σ hσ => (hchecks σ hσ).1) (ihr fun σ hσ => (hchecks σ hσ).2)
  | @inner _ _ _ _ _ _ m n _ _ hl hr ihl ihr =>
    simp only [List.forall_mem_append] at hchecks
    refine .inner (ihl fun σ hσ => (hchecks σ hσ).1.1) (ihr fun σ hσ => (hchecks σ hσ).1.2)
      fun σ hσ => ?_
    have htot : (Env.ofValuation σ).Total := fun _ => rfl
    have hholds := (Env.holds_iff htot (hl.dimension ht m (by simp)) (hr.dimension ht n (.head _))).1
      ((hchecks σ hσ).2 _ (.head _))
    simpa [CompareOp.holds] using hholds

/-- **A shaped tree of the fragment fits** wherever its checks hold. -/
theorem Infers.fits (ht : t.Declared) (hnatural : t.Natural) (h : Infers t e e' cs)
    (hchecks : ∀ σ, G σ → ∀ c ∈ cs, c.Holds (.ofValuation σ)) (hfrag : e.inFragment = true) :
    ∃ axes, Fits G t e' axes := by
  obtain ⟨s, hs⟩ := h.part.exists_shape
  exact ⟨s, (h.fragment ht hfrag hs).fits ht hnatural hchecks⟩

end

/-! ## Literals of a source -/

section
variable {t t' : SymbolTable} {name : String} {symbol : Symbol}

theorem SymbolTable.Natural.adds (h : t.Natural) (hadds : Adds t name symbol t')
    (hs : ∀ values, symbol = .literal values → ∀ n, .int n ∈ values → 0 ≤ n) : t'.Natural := by
  intro other values hget
  by_cases hne : other = name
  · subst hne
    rw [hadds.get?_self] at hget
    exact hs values (Option.some.inj hget)
  · rw [hadds.get?_other hne] at hget
    exact h other values hget

theorem SymbolTable.Natural.insert {shape : Option Shape} (h : t.Natural)
    (hinsert : t.insert name (.array shape none) = .ok t') : t'.Natural := by
  rcases insert_cases hinsert with ⟨rfl, -⟩ | hadds
  · exact h
  · exact h.adds hadds fun values heq => by cases heq

theorem SymbolTable.Natural.enter {d : String × Option Shape} (h : t.Natural)
    (henter : t.enter d = .ok t') : t'.Natural := by
  obtain ⟨name, shape⟩ := d
  cases shape with
  | some shape => exact h.insert henter
  | none =>
    rw [SymbolTable.enter] at henter
    split at henter
    · cases henter
      exact h
    · exact h.insert henter

theorem SymbolTable.Natural.enterAll (ds : Declarations) (h : t.Natural)
    (henter : t.enterAll ds = .ok t') : t'.Natural := by
  induction ds generalizing t with
  | nil =>
    cases henter
    exact h
  | cons d ds ih =>
    obtain ⟨t₁, h₁, henter⟩ := except_bind_ok.1 henter
    exact ih (h.enter h₁) henter

theorem Grammar.Elements.natural {u : List Token} {values : Shape} (h : Elements u values) :
    ∀ n, .int n ∈ values → 0 ≤ n := by
  induction h with
  | nil => simp
  | integer m _ ih =>
    intro n hn
    rcases List.mem_cons.1 hn with heq | hn
    · cases heq
      exact Int.natCast_nonneg m
    · exact ih n hn
  | name _ _ ih =>
    intro n hn
    rcases List.mem_cons.1 hn with heq | hn
    · cases heq
    · exact ih n hn

theorem Grammar.Derives.natural {extent : List Token → List Token → Prop} {X : Category}
    {u rest : List Token} {p : Phrase} {e : Expr} (h : Derives extent X u rest p) (ht : t.Natural)
    (hbuild : p.build t = .ok (e, t')) : t'.Natural := by
  induction h generalizing t t' e with
  | lift _ _ ih | paren _ ih => exact ih ht hbuild
  | join _ _ _ _ ihl ihr =>
    obtain ⟨⟨l, t₁⟩, hl, hbuild⟩ := except_bind_ok.1 hbuild
    obtain ⟨⟨r, t₂⟩, hr, hbuild⟩ := except_bind_ok.1 hbuild
    cases hbuild
    exact ihr (ihl ht hl) hr
  | leading _ _ _ ih =>
    obtain ⟨⟨e₁, t₁⟩, he, hbuild⟩ := except_bind_ok.1 hbuild
    cases hbuild
    exact ih ht he
  | vector hvalues =>
    obtain ⟨t₁, h₁, hbuild⟩ := except_bind_ok.1 hbuild
    obtain ⟨⟨n, t₂⟩, hfresh, hbuild⟩ := except_bind_ok.1 hbuild
    cases hbuild
    refine (ht.enterAll _ h₁).adds (Grow.fresh_ok hfresh).2 fun values heq => ?_
    injection heq with _ _ _ hsame
    exact Option.some.inj hsame ▸ hvalues.natural
  | name =>
    obtain ⟨t₁, h₁, hbuild⟩ := except_bind_ok.1 hbuild
    cases hbuild
    exact ht.enter h₁
  | declared =>
    obtain ⟨t₁, h₁, hbuild⟩ := except_bind_ok.1 hbuild
    obtain ⟨t₂, h₂, hbuild⟩ := except_bind_ok.1 hbuild
    cases hbuild
    exact (ht.enterAll _ h₁).enter h₂

/-- **The integers of a source's literals are not negative**: the grammar has no sign. -/
theorem Context.parse_natural {source : String} {c : Context}
    (hc : Context.parse source = .ok c) : c.table.Natural := by
  obtain ⟨spanned, hscan, -⟩ := except_bind_ok.1 hc
  obtain ⟨p, hp⟩ := (Context.derivable_of_parse hscan hc).exists_farthest
  exact hp.natural (fun name values hget => by cases hget) (Context.build_of_parse hscan hc hp)

end

end PsiCalculus
