import PsiCalculus.Proofs.Tensor.Meaning

/-!
# Arrays of shaped trees

The fragment of the calculus with a meaning on whole arrays (`Expr.inFragment`): names, vector
literals, the structural operators with literal arguments, pointwise arithmetic, products, reductions,
and shape and rank of a named array.

* `Fragment t e s cs`: a shaped tree of the fragment with its axes `s` and its checks `cs`.
  `Infers.fragment`: a tree of the fragment stays in it when it is shaped.
* `Meant D t m e T`: over a memory that binds every name, the shaped tree `e` stands for the tensor
  `T`, and the shape each node carries is the shape of the tensor it stands for.
* `Infers.meant`: a shaped tree of the fragment stands for a tensor if all its checks hold.
* `Meant.denote_eq`: what a tree stands for is `denote`, also over a larger table and in a memory
  that differs in generated names only.
-/

namespace PsiCalculus

open SymbolTable

namespace Env

/-- Every name is bound. -/
def Total (ρ : Env) : Prop := ∀ name, (ρ.number name).isSome

theorem Total.dimension {ρ : Env} (h : ρ.Total) {t : SymbolTable} {x : Element}
    (hx : t.Dimension x) : (ρ.element x).isSome := by
  obtain ⟨n, rfl⟩ | ⟨name, rfl, -⟩ := hx
  · rfl
  · exact h name

theorem Total.index {ρ : Env} (h : ρ.Total) {t : SymbolTable} {x : Element}
    (hx : t.IndexElement x) : (ρ.element x).isSome := by
  obtain ⟨name, bound, rfl, -⟩ := hx
  exact h name

theorem Total.elements {ρ : Env} (h : ρ.Total) {t : SymbolTable} {s : Shape}
    (hs : ∀ x ∈ s, t.Dimension x) : ρ.elements s = some (s.map ρ.value) :=
  elements_eq fun x hx => h.dimension (hs x hx)

theorem holds_iff {ρ : Env} (h : ρ.Total) {t : SymbolTable} {op : CompareOp} {x y : Element}
    (hx : t.Dimension x) (hy : t.Dimension y) :
    Check.Holds ρ ⟨op, x, y⟩ ↔ op.holds (ρ.value x) (ρ.value y) = true := by
  obtain ⟨i, hi⟩ := Option.isSome_iff_exists.1 (h.dimension hx)
  obtain ⟨j, hj⟩ := Option.isSome_iff_exists.1 (h.dimension hy)
  simp [Check.Holds, Check.test, value, hi, hj]

end Env

/-! ## The fragment -/

namespace Expr

/-- A vector literal. -/
def isLiteral (e : Expr) : Bool := e.arrayName?.any isGenerated

/-- An array of the user. -/
def isName (e : Expr) : Bool := e.arrayName?.any fun name => !isGenerated name

/-- Built from names and vector literals by the operators that have a meaning on whole arrays. -/
def inFragment : Expr → Bool
  | .node .array _ _ [] => true
  | .node .transpose _ _ [e] | .node (.reduce _) _ _ [e] => e.inFragment
  | .node .permute _ _ [p, e] | .node .psi _ _ [p, e] => p.isLiteral && e.inFragment
  | .node (.arith _) _ _ [l, r] | .node (.outer _) _ _ [l, r] | .node (.inner _ _) _ _ [l, r] =>
    l.inFragment && r.inFragment
  | .node .shape _ _ [e] | .node .dim _ _ [e] => e.isName
  | _ => false
termination_by structural e => e

end Expr

/-! ## Shaped trees of the fragment -/

/-- A shaped tree of the fragment, with its axes and the checks of its nodes. -/
inductive Fragment (t : SymbolTable) : Expr → Shape → List Check → Prop
  | leaf {name : String} {symbol : Symbol} {s : Shape} : t.get? name = some symbol →
      symbol.shape = some s → Fragment t (.array name (some s)) s []
  | shape {name : String} {symbol : Symbol} {s : Shape} : isGenerated name = false →
      t.get? name = some symbol → symbol.shape = some s →
      Fragment t (.unary .shape (some [.int s.length]) (.array name (some s))) [.int s.length] []
  | dim {name : String} {symbol : Symbol} {s : Shape} : isGenerated name = false →
      t.get? name = some symbol → symbol.shape = some s →
      Fragment t (.unary .dim (some []) (.array name (some s))) [] []
  | transpose {e : Expr} {s : Shape} {cs : List Check} : Fragment t e s cs →
      Fragment t (.unary .transpose (some s.reverse) e) s.reverse cs
  | reduce {op : ArithOp} {e : Expr} {n : Element} {s : Shape} {cs : List Check} :
      Fragment t e (n :: s) cs → Fragment t (.unary (.reduce op) (some s) e) s cs
  | permute {p : String} {a : Option Shape} {values s placed : Shape} {targets : List Int} {e : Expr}
      {cs : List Check} : t.get? p = some (.literal values) → Shape.ints? values = some targets →
      targets.length = s.length → Shape.place? targets s = some placed → Fragment t e s cs →
      Fragment t (.binary .permute (some placed) (.array p a) e) placed cs
  | psi {v : String} {a : Option Shape} {values s : Shape} {e : Expr} {cs : List Check} :
      t.get? v = some (.literal values) → values.length ≤ s.length → Fragment t e s cs →
      Fragment t (.binary .psi (some (s.drop values.length)) (.array v a) e) (s.drop values.length)
        (cs ++ Shape.bounds values s)
  | arith {op : ArithOp} {l r : Expr} {a b s : Shape} {cs ds checks : List Check} :
      Fragment t l a cs → Fragment t r b ds → BinaryLaw none (.arith op) a b s checks →
      Fragment t (.binary (.arith op) (some s) l r) s (cs ++ ds ++ checks)
  | outer {op : ArithOp} {l r : Expr} {a b : Shape} {cs ds : List Check} : Fragment t l a cs →
      Fragment t r b ds → Fragment t (.binary (.outer op) (some (a ++ b)) l r) (a ++ b) (cs ++ ds)
  | inner {fold join : ArithOp} {l r : Expr} {a b : Shape} {m n : Element} {cs ds : List Check} :
      Fragment t l (a ++ [m]) cs → Fragment t r (n :: b) ds →
      Fragment t (.binary (.inner fold join) (some (a ++ b)) l r) (a ++ b)
        (cs ++ ds ++ [⟨.equal, m, n⟩])

section
variable {t : SymbolTable} {e e' : Expr} {s : Shape} {cs : List Check}

theorem Fragment.shape_eq (h : Fragment t e s cs) : e.shape = some s := by
  cases h <;> rfl

theorem Fragment.dimension (ht : t.Declared) (h : Fragment t e s cs) : ∀ x ∈ s, t.Dimension x := by
  induction h with
  | leaf hget hshape => exact ht.sound.shape_element hget hshape
  | shape => exact fun x hx => .inl ⟨_, List.mem_singleton.1 hx⟩
  | dim => exact List.forall_mem_nil _
  | transpose _ ih => exact fun x hx => ih x (List.mem_reverse.1 hx)
  | reduce _ ih => exact fun x hx => ih x (.tail _ hx)
  | permute _ _ hlen hplaced _ ih => exact fun x hx => ih x (Shape.subset_of_place? hlen hplaced hx)
  | psi _ _ _ ih => exact fun x hx => ih x (List.mem_of_mem_drop hx)
  | arith _ _ hlaw ihl ihr => exact hlaw.dimension ihl ihr
  | outer _ _ ihl ihr => exact List.forall_mem_append.2 ⟨ihl, ihr⟩
  | inner _ _ ihl ihr =>
    exact List.forall_mem_append.2
      ⟨(List.forall_mem_append.1 ihl).1, (List.forall_mem_cons.1 ihr).2⟩

theorem Infers.literal (ht : t.Declared) (h : Infers t e e' cs) (he : e.isLiteral = true) :
    ∃ name values, e' = .array name (some [.int values.length]) ∧ cs = [] ∧
      t.get? name = some (.literal values) := by
  cases h with
  | @leaf name symbol shape hget hshape =>
    have hg : isGenerated name = true := by
      simpa [Expr.isLiteral, Expr.arrayName?, Expr.array, Expr.name?] using he
    cases ht.entry hget with
    | user hu _ => simp [hg] at hu
    | @literal values _ _ =>
      cases hshape
      exact ⟨name, values, rfl, rfl, hget⟩
  | unary _ _ hlaw => cases hlaw <;> simp [Expr.isLiteral, Expr.arrayName?, Expr.unary] at he
  | binary _ _ _ _ hlaw => cases hlaw <;> simp [Expr.isLiteral, Expr.arrayName?, Expr.binary] at he
  | scalar _ _ => simp [Expr.isLiteral, Expr.arrayName?, Expr.unary] at he

theorem Infers.name (h : Infers t e e' cs) (he : e.isName = true) :
    ∃ name shape, e' = .array name (some shape) ∧ cs = [] ∧ isGenerated name = false ∧
      ∃ symbol, t.get? name = some symbol ∧ symbol.shape = some shape := by
  cases h with
  | leaf hget hshape =>
    refine ⟨_, _, rfl, rfl, ?_, _, hget, hshape⟩
    simpa [Expr.isName, Expr.arrayName?, Expr.array, Expr.name?] using he
  | unary _ _ hlaw => cases hlaw <;> simp [Expr.isName, Expr.arrayName?, Expr.unary] at he
  | binary _ _ _ _ hlaw => cases hlaw <;> simp [Expr.isName, Expr.arrayName?, Expr.binary] at he
  | scalar _ _ => simp [Expr.isName, Expr.arrayName?, Expr.unary] at he

/-- **A tree of the fragment stays in it when it is shaped.** -/
theorem Infers.fragment (ht : t.Declared) (h : Infers t e e' cs) (hfrag : e.inFragment = true)
    (hs : e'.shape = some s) : Fragment t e' s cs := by
  induction h generalizing s with
  | leaf hget hshape =>
    cases hs
    exact .leaf hget hshape
  | scalar _ _ ih => exact ih (by simpa [Expr.unary, Expr.inFragment] using hfrag) hs
  | unary he hs' hlaw ih =>
    cases hs
    cases hlaw with
    | transpose => exact .transpose (ih (by simpa [Expr.unary, Expr.inFragment] using hfrag) hs')
    | reduce => exact .reduce (ih (by simpa [Expr.unary, Expr.inFragment] using hfrag) hs')
    | shape =>
      obtain ⟨name, shape, rfl, rfl, hu, symbol, hget, hshape⟩ :=
        he.name (by simpa [Expr.unary, Expr.inFragment] using hfrag)
      cases hs'
      exact .shape hu hget hshape
    | dim =>
      obtain ⟨name, shape, rfl, rfl, hu, symbol, hget, hshape⟩ :=
        he.name (by simpa [Expr.unary, Expr.inFragment] using hfrag)
      exact .dim hu hget hshape
  | binary hl hr ha hb hlaw ihl ihr =>
    cases hs
    cases hlaw with
    | permute hvalues hints hlen hplaced =>
      simp only [Expr.binary, Expr.inFragment, Bool.and_eq_true] at hfrag
      obtain ⟨p, values, rfl, rfl, hp⟩ := hl.literal ht hfrag.1
      cases eq_of_valueOf_literal (.refl t) hp hvalues
      rw [List.nil_append, List.append_nil]
      exact .permute hp hints hlen hplaced (ihr hfrag.2 hb)
    | assign => simp [Expr.binary, Expr.inFragment] at hfrag
    | psi hlen =>
      simp only [Expr.binary, Expr.inFragment, Bool.and_eq_true] at hfrag
      obtain ⟨v, values, rfl, rfl, hv⟩ := hl.literal ht hfrag.1
      cases ha
      rw [Shape.indexRank_natCast] at hlen ⊢
      rw [List.nil_append, valueOf_literal (.refl t) hv, Option.getD_some]
      exact .psi hv hlen (ihr hfrag.2 hb)
    | scalarLeft =>
      simp only [Expr.binary, Expr.inFragment, Bool.and_eq_true] at hfrag
      exact .arith (ihl hfrag.1 ha) (ihr hfrag.2 hb) .scalarLeft
    | scalarRight hne =>
      simp only [Expr.binary, Expr.inFragment, Bool.and_eq_true] at hfrag
      exact .arith (ihl hfrag.1 ha) (ihr hfrag.2 hb) (.scalarRight hne)
    | pointwise hne hne' hlen =>
      simp only [Expr.binary, Expr.inFragment, Bool.and_eq_true] at hfrag
      exact .arith (ihl hfrag.1 ha) (ihr hfrag.2 hb) (.pointwise hne hne' hlen)
    | outer =>
      simp only [Expr.binary, Expr.inFragment, Bool.and_eq_true] at hfrag
      rw [List.append_nil]
      exact .outer (ihl hfrag.1 ha) (ihr hfrag.2 hb)
    | inner =>
      simp only [Expr.binary, Expr.inFragment, Bool.and_eq_true] at hfrag
      exact .inner (ihl hfrag.1 ha) (ihr hfrag.2 hb)

end

/-! ## Tensors of shaped trees -/

/-- The tensor has the shape `s`, which is made of dimensions. -/
structure Sized {V : Type} (t : SymbolTable) (m : Memory V) (s : Shape) (T : Tensor V) : Prop where
  shape : T.shape = s.map m.env.value
  dimension : ∀ x ∈ s, t.Dimension x

/-- The tensor of a shaped tree, whose nodes carry the shapes of their tensors. -/
inductive Meant {V : Type} (D : Domain V) (t : SymbolTable) (m : Memory V) :
    Expr → Tensor V → Prop
  | literal {name : String} {values : Shape} : t.get? name = some (.literal values) →
      Meant D t m (.array name (some [.int values.length]))
        (.vector ((values.map m.env.value).map D.ofInt))
  | user {name : String} {s : Shape} {T : Tensor V} : t.get? name = some (.array (some s) none) →
      m.array name = some T → Sized t m s T → Meant D t m (.array name (some s)) T
  | transpose {e : Expr} {T : Tensor V} {s : Shape} : Meant D t m e T →
      Sized t m s T.transpose → Meant D t m (.unary .transpose (some s) e) T.transpose
  | permute {p : String} {a : Option Shape} {values s : Shape} {places : List Int} {e : Expr}
      {T U : Tensor V} : t.get? p = some (.literal values) → Shape.ints? values = some places →
      Meant D t m e T → T.permute places = some U → Sized t m s U →
      Meant D t m (.binary .permute (some s) (.array p a) e) U
  | psi {v : String} {a : Option Shape} {values s : Shape} {e : Expr} {T : Tensor V} :
      t.get? v = some (.literal values) → values.length ≤ T.shape.length → Meant D t m e T →
      Sized t m s (T.select (values.map m.env.value)) →
      Meant D t m (.binary .psi (some s) (.array v a) e) (T.select (values.map m.env.value))
  | arith {op : ArithOp} {l r : Expr} {A B U : Tensor V} {s : Shape} : Meant D t m l A →
      Meant D t m r B → A.pointwise (D.apply op) B = some U → Sized t m s U →
      Meant D t m (.binary (.arith op) (some s) l r) U
  | outer {op : ArithOp} {l r : Expr} {A B : Tensor V} {s : Shape} : Meant D t m l A →
      Meant D t m r B → Sized t m s (A.outer (D.apply op) B) →
      Meant D t m (.binary (.outer op) (some s) l r) (A.outer (D.apply op) B)
  | inner {fold join : ArithOp} {l r : Expr} {A B U : Tensor V} {s : Shape} : Meant D t m l A →
      Meant D t m r B → A.inner (D.apply fold) (D.apply join) B = some U →
      Sized t m s U → Meant D t m (.binary (.inner fold join) (some s) l r) U
  | reduce {op : ArithOp} {e : Expr} {T U : Tensor V} {s : Shape} : Meant D t m e T →
      T.reduce (D.apply op) = some U → Sized t m s U →
      Meant D t m (.unary (.reduce op) (some s) e) U
  | shape {name : String} {a s : Shape} {T : Tensor V} : Meant D t m (.array name (some a)) T →
      Sized t m s (.vector (T.shape.map D.ofInt)) →
      Meant D t m (.unary .shape (some s) (.array name (some a))) (.vector (T.shape.map D.ofInt))
  | dim {name : String} {a : Shape} {T : Tensor V} : Meant D t m (.array name (some a)) T →
      Meant D t m (.unary .dim (some []) (.array name (some a))) (.scalar (D.ofInt T.rank))

/-- Memories that agree on the user's names and on arrays. -/
structure Memory.SameUser {V : Type} (m m' : Memory V) : Prop where
  array : m'.array = m.array
  number : ∀ name, isGenerated name = false → m'.number name = m.number name

theorem Memory.SameUser.bind {V : Type} {m m' : Memory V} (h : m.SameUser m') {name : String}
    (hn : isGenerated name = true) (i : Int) : m.SameUser (m'.bind name i) := by
  refine ⟨h.array, fun other ho => ?_⟩
  rw [Memory.bind_other, h.number other ho]
  rintro rfl
  simp [hn] at ho

theorem Memory.SameUser.dimension {V : Type} {m m' : Memory V} (h : m.SameUser m') {t : SymbolTable}
    {x : Element} (hx : t.Dimension x) : m'.env.element x = m.env.element x := by
  obtain ⟨n, rfl⟩ | ⟨name, rfl, hu, -⟩ := hx
  · rfl
  · exact h.number name hu

namespace Meant

variable {V : Type} {D : Domain V} {t t' : SymbolTable} {m m' : Memory V} {e : Expr} {T : Tensor V}

theorem exists_sized (h : Meant D t m e T) : ∃ s, e.shape = some s ∧ Sized t m s T := by
  cases h with
  | literal =>
    refine ⟨_, rfl, by simp [Tensor.vector, Env.value], fun x hx => ?_⟩
    exact .inl ⟨_, List.mem_singleton.1 hx⟩
  | dim => exact ⟨_, rfl, rfl, by simp⟩
  | user _ _ hs | transpose _ hs | permute _ _ _ _ hs | psi _ _ _ hs | arith _ _ _ hs
  | outer _ _ hs | inner _ _ _ hs | reduce _ _ hs | shape _ hs => exact ⟨_, rfl, hs⟩

theorem sized (h : Meant D t m e T) {s : Shape} (hs : e.shape = some s) : Sized t m s T := by
  obtain ⟨s', hs', hT⟩ := h.exists_sized
  rw [hs] at hs'
  cases hs'
  exact hT

theorem rank_eq (h : Meant D t m e T) {s : Shape} (hs : e.shape = some s) :
    T.shape.length = s.length := by
  rw [(h.sized hs).shape, List.length_map]

theorem known (h : Meant D t m e T) : e.Known t := by
  induction h with
  | literal hs | user hs _ _ => exact .array (mem_names_of_get? hs) _
  | transpose _ _ ih | reduce _ _ _ ih | shape _ _ ih | dim _ ih => exact ih.unary
  | permute hs _ _ _ _ ih | psi hs _ _ _ ih =>
    exact (Expr.Known.array (mem_names_of_get? hs) _).binary ih
  | arith _ _ _ _ ihl ihr | outer _ _ _ ihl ihr | inner _ _ _ _ ihl ihr => exact ihl.binary ihr

/-- A literal holds dimensions. -/
theorem literal_dimension (ht : t.Declared) {name : String} {values : Shape}
    (hs : t.get? name = some (.literal values)) : ∀ x ∈ values, t.Dimension x := by
  have hv := ht.value_dimension (.array name none)
  rwa [valueOf_literal (.refl t) hs, Option.getD_some] at hv

theorem elements_literal (ht : t.Declared) (hm : m.env.Total) (hu : m.SameUser m') {name : String}
    {values : Shape} (hs : t.get? name = some (.literal values)) :
    m'.env.elements values = some (values.map m.env.value) := by
  have hdims := literal_dimension ht hs
  refine (mapM_congr fun x hx => ?_).trans (hm.elements hdims)
  exact hu.dimension (hdims x hx)

/-- What a tree stands for is its denotation. -/
theorem denote_eq (ht : t.Declared) (hm : m.env.Total) (hx : Extends t t') (hu : m.SameUser m')
    (h : Meant D t m e T) : denote D t' m' e = some T := by
  induction h with
  | literal hs =>
    rw [Expr.array, denote, denoteName, hx.get? hs]
    simp only [Option.bind_some, Symbol.array, elements_literal ht hm hu hs, Option.map_some]
  | user hs hT _ =>
    rw [Expr.array, denote, denoteName, hx.get? hs]
    simp only [Option.bind_some, Symbol.array]
    rw [hu.array, hT]
  | transpose _ _ ih => rw [Expr.unary, denote, ih, Option.map_some]
  | permute hs hp _ hU _ ih =>
    rw [Expr.binary, denote, ih, valueOf_literal hx hs]
    simp only [bind, Option.bind_some, hp, hU]
  | psi hs _ _ _ ih =>
    rw [Expr.binary, denote, ih, valueOf_literal hx hs]
    simp only [bind, Option.bind_some, elements_literal ht hm hu hs]
    rfl
  | arith _ _ hU _ ihl ihr =>
    rw [Expr.binary, denote, ihl, ihr]
    exact hU
  | outer _ _ _ ihl ihr =>
    rw [Expr.binary, denote, ihl, ihr]
    rfl
  | inner _ _ hU _ ihl ihr =>
    rw [Expr.binary, denote, ihl, ihr]
    exact hU
  | reduce _ hU _ ih =>
    rw [Expr.unary, denote, ih]
    exact hU
  | shape _ _ ih | dim _ ih =>
    rw [Expr.unary, denote, ih]
    rfl

end Meant

/-! ## Shaped trees stand for tensors -/

/-- The user's arrays have the shapes that the table declares. -/
def Memory.Conforms {V : Type} (t : SymbolTable) (m : Memory V) : Prop :=
  ∀ name s, t.get? name = some (.array (some s) none) →
    ∃ T, m.array name = some T ∧ m.env.elements s = some T.shape

section
variable {V : Type} {D : Domain V} {t : SymbolTable} {m : Memory V}

theorem Env.Total.agreement {ρ : Env} (hρ : ρ.Total) : ∀ {l r : Shape}, l.length = r.length →
    (∀ x ∈ l, t.Dimension x) → (∀ x ∈ r, t.Dimension x) →
    (∀ c ∈ Shape.agreement l r, c.Holds ρ) →
    l.map ρ.value = r.map ρ.value ∧ (List.zipWith Shape.prefer l r).map ρ.value = l.map ρ.value
  | [], [], _, _, _, _ => ⟨rfl, rfl⟩
  | x :: l, y :: r, hlen, hl, hr, h => by
    obtain ⟨hlr, hp⟩ := agreement hρ (Nat.succ.inj hlen) (fun a ha => hl a (.tail _ ha))
      (fun a ha => hr a (.tail _ ha)) (fun c hc => h c (.tail _ hc))
    have hxy : ρ.value x = ρ.value y := by
      have := (Env.holds_iff hρ (hl x (.head _)) (hr y (.head _))).1 (h ⟨.equal, x, y⟩ (.head _))
      simpa [CompareOp.holds] using this
    have hpref : ρ.value (Shape.prefer x y) = ρ.value x := by
      cases x <;> cases y <;> first | rfl | exact hxy.symm
    exact ⟨by rw [List.map_cons, List.map_cons, hxy, hlr],
      by rw [List.zipWith_cons_cons, List.map_cons, List.map_cons, hpref, hp]⟩

/-! ### Operators on tensors -/

section
variable {e l r : Expr} {T A B : Tensor V} {s a b : Shape}

theorem Meant.exists_permute {p : String} {c : Option Shape} {values placed : Shape}
    {targets : List Int} (hp : t.get? p = some (.literal values))
    (hints : Shape.ints? values = some targets) (hlen : targets.length = s.length)
    (hplaced : Shape.place? targets s = some placed) (hdims : ∀ x ∈ placed, t.Dimension x)
    (hT : Meant D t m e T) (hs : e.shape = some s) :
    ∃ U, Meant D t m (.binary .permute (some placed) (.array p c) e) U := by
  have hTs := (hT.sized hs).shape
  have hlen' : targets.length = (s.map m.env.value).length := by rw [hlen, List.length_map]
  have hplaced' := Shape.place?_map m.env.value hlen hplaced
  obtain ⟨hperm, -⟩ := Shape.gathers_of_place? hlen' hplaced'
  have hlengths := Shape.place?_eq_permutedLengths hlen' hplaced'
  rw [← hTs] at hperm hlengths
  obtain ⟨U, hU⟩ := Tensor.exists_permute hperm
  exact ⟨U, .permute hp hints hT hU ⟨(Tensor.permute_eq hU).2.1.trans hlengths.symm, hdims⟩⟩

theorem Meant.exists_arith {op : ArithOp} {values : Option Shape} {checks : List Check}
    (hm : m.env.Total) (hlaw : BinaryLaw values (.arith op) a b s checks)
    (hda : ∀ x ∈ a, t.Dimension x) (hdb : ∀ x ∈ b, t.Dimension x)
    (hchecks : ∀ c ∈ checks, c.Holds m.env) (hA : Meant D t m l A) (hB : Meant D t m r B)
    (ha : l.shape = some a) (hb : r.shape = some b) :
    ∃ U, Meant D t m (.binary (.arith op) (some s) l r) U := by
  have hdims := hlaw.dimension hda hdb
  have hAs := (hA.sized ha).shape
  have hBs := (hB.sized hb).shape
  cases hlaw with
  | scalarLeft =>
    have hscalar : A.shape = [] := hAs
    obtain ⟨U, hU⟩ := Tensor.exists_pointwise (B := B) (D.apply op) (.inl hscalar)
    exact ⟨U, .arith hA hB hU ⟨by rw [Tensor.pointwise_shape hU, if_pos hscalar, hBs], hdims⟩⟩
  | scalarRight hne =>
    have hne' : A.shape ≠ [] := by simpa [hAs] using hne
    obtain ⟨U, hU⟩ := Tensor.exists_pointwise (A := A) (D.apply op) (.inr (.inl hBs))
    exact ⟨U, .arith hA hB hU ⟨by rw [Tensor.pointwise_shape hU, if_neg hne', hAs], hdims⟩⟩
  | pointwise hne _ hlen =>
    obtain ⟨hab, hprefer⟩ := hm.agreement hlen hda hdb hchecks
    have hne' : A.shape ≠ [] := by simpa [hAs] using hne
    obtain ⟨U, hU⟩ := Tensor.exists_pointwise (A := A) (B := B) (D.apply op)
      (.inr (.inr (by rw [hAs, hBs, hab])))
    exact ⟨U, .arith hA hB hU
      ⟨by rw [Tensor.pointwise_shape hU, if_neg hne', hAs, hprefer], hdims⟩⟩

theorem Meant.exists_inner {fold join : ArithOp} {x y : Element}
    (hxy : m.env.value x = m.env.value y) (hdims : ∀ x ∈ a ++ b, t.Dimension x)
    (hA : Meant D t m l A) (hB : Meant D t m r B) (ha : l.shape = some (a ++ [x]))
    (hb : r.shape = some (y :: b)) :
    ∃ U, Meant D t m (.binary (.inner fold join) (some (a ++ b)) l r) U := by
  have hAs : A.shape = a.map m.env.value ++ [m.env.value x] := by
    rw [(hA.sized ha).shape, List.map_append, List.map_singleton]
  have hBs : B.shape = m.env.value x :: b.map m.env.value := by
    rw [(hB.sized hb).shape, List.map_cons, hxy]
  obtain ⟨U, hU⟩ := Tensor.exists_inner (D.apply fold) (D.apply join) hAs hBs
  obtain ⟨a', x', b', ha', hb', hUs, -⟩ := Tensor.inner_eq hU
  rw [hAs] at ha'
  rw [hBs] at hb'
  obtain ⟨rfl, -⟩ := List.append_inj' ha' rfl
  cases hb'
  exact ⟨U, .inner hA hB hU ⟨by rw [hUs, List.map_append], hdims⟩⟩

theorem Meant.exists_reduce {op : ArithOp} {n : Element} (hdims : ∀ x ∈ s, t.Dimension x)
    (hT : Meant D t m e T) (hs : e.shape = some (n :: s)) :
    ∃ U, Meant D t m (.unary (.reduce op) (some s) e) U := by
  have hTs : T.shape = m.env.value n :: s.map m.env.value := (hT.sized hs).shape
  obtain ⟨U, hU⟩ := Tensor.exists_reduce (D.apply op) hTs
  obtain ⟨n', s', hn', hUs, -⟩ := Tensor.reduce_eq hU
  rw [hTs] at hn'
  cases hn'
  exact ⟨U, .reduce hT hU ⟨hUs, hdims⟩⟩

end

theorem Meant.exists_leaf (ht : t.Declared) (hm : m.env.Total) (hc : m.Conforms t) {name : String}
    {symbol : Symbol} {s : Shape} (hget : t.get? name = some symbol)
    (hshape : symbol.shape = some s) : ∃ T, Meant D t m (.array name (some s)) T := by
  cases ht.entry hget with
  | user =>
    cases hshape
    have hdims := ht.sound.shape_element hget rfl
    obtain ⟨T, hT, hTs⟩ := hc name s hget
    rw [hm.elements hdims] at hTs
    exact ⟨T, .user hget hT ⟨(Option.some.inj hTs).symm, hdims⟩⟩
  | literal =>
    cases hshape
    exact ⟨_, .literal hget⟩

theorem Fragment.meant (ht : t.Declared) (hm : m.env.Total) (hc : m.Conforms t) {e : Expr}
    {s : Shape} {cs : List Check} (h : Fragment t e s cs) (hchecks : ∀ c ∈ cs, c.Holds m.env) :
    ∃ T, Meant D t m e T := by
  have hdims := h.dimension ht
  induction h with
  | leaf hget hshape => exact Meant.exists_leaf ht hm hc hget hshape
  | shape _ hget hshape =>
    obtain ⟨T, hT⟩ := Meant.exists_leaf (D := D) ht hm hc hget hshape
    have hTs := (hT.sized rfl).shape
    exact ⟨_, .shape hT ⟨by simp [Tensor.vector, hTs, Env.value], hdims⟩⟩
  | dim _ hget hshape =>
    obtain ⟨T, hT⟩ := Meant.exists_leaf (D := D) ht hm hc hget hshape
    exact ⟨_, .dim hT⟩
  | transpose he ih =>
    obtain ⟨T, hT⟩ := ih hchecks (he.dimension ht)
    have hTs := (hT.sized he.shape_eq).shape
    exact ⟨_, .transpose hT ⟨by simp [Tensor.transpose, hTs], hdims⟩⟩
  | reduce he ih =>
    obtain ⟨T, hT⟩ := ih hchecks (he.dimension ht)
    exact hT.exists_reduce hdims he.shape_eq
  | permute hp hints hlen hplaced he ih =>
    obtain ⟨T, hT⟩ := ih hchecks (he.dimension ht)
    exact hT.exists_permute hp hints hlen hplaced hdims he.shape_eq
  | psi hv hlen he ih =>
    obtain ⟨T, hT⟩ := ih (List.forall_mem_append.1 hchecks).1 (he.dimension ht)
    have hTs := (hT.sized he.shape_eq).shape
    exact ⟨_, .psi hv (by rwa [hTs, List.length_map]) hT
      ⟨by simp [Tensor.select, hTs, List.map_drop], hdims⟩⟩
  | arith hl hr hlaw ihl ihr =>
    simp only [List.forall_mem_append] at hchecks
    obtain ⟨A, hA⟩ := ihl hchecks.1.1 (hl.dimension ht)
    obtain ⟨B, hB⟩ := ihr hchecks.1.2 (hr.dimension ht)
    exact Meant.exists_arith hm hlaw (hl.dimension ht) (hr.dimension ht) hchecks.2 hA hB hl.shape_eq
      hr.shape_eq
  | outer hl hr ihl ihr =>
    rw [List.forall_mem_append] at hchecks
    obtain ⟨A, hA⟩ := ihl hchecks.1 (hl.dimension ht)
    obtain ⟨B, hB⟩ := ihr hchecks.2 (hr.dimension ht)
    have hAs := (hA.sized hl.shape_eq).shape
    have hBs := (hB.sized hr.shape_eq).shape
    exact ⟨_, .outer hA hB ⟨by simp [Tensor.outer, hAs, hBs], hdims⟩⟩
  | @inner _ _ _ _ _ _ x y _ _ hl hr ihl ihr =>
    simp only [List.forall_mem_append] at hchecks
    obtain ⟨A, hA⟩ := ihl hchecks.1.1 (hl.dimension ht)
    obtain ⟨B, hB⟩ := ihr hchecks.1.2 (hr.dimension ht)
    have hholds := (Env.holds_iff hm (hl.dimension ht x (by simp)) (hr.dimension ht y (.head _))).1
      (hchecks.2 _ (.head _))
    have hxy : m.env.value x = m.env.value y := by simpa [CompareOp.holds] using hholds
    exact Meant.exists_inner hxy hdims hA hB hl.shape_eq hr.shape_eq

/-- **A shaped tree of the fragment stands for a tensor** where all its checks hold. -/
theorem Infers.meant (ht : t.Declared) (hm : m.env.Total) (hc : m.Conforms t) {e e' : Expr}
    {cs : List Check} (h : Infers t e e' cs) (hchecks : ∀ c ∈ cs, c.Holds m.env)
    (hfrag : e.inFragment = true) : ∃ T, Meant D t m e' T := by
  obtain ⟨s, hs⟩ := h.part.exists_shape
  exact (h.fragment ht hfrag hs).meant ht hm hc hchecks

end

end PsiCalculus
