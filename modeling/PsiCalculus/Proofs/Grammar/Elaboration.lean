import PsiCalculus.Proofs.Grammar.Derivation
import PsiCalculus.Proofs.Source

/-!
# What a phrase declares

`Phrase.build` says, without tokens, what a phrase adds to a table and which tree it is. From left to
right, `N ^ <..>` declares the shape of `N`, a name between angles is declared a scalar, and `N` alone
is declared an array of unknown shape, unless it is known. A vector is an array under a fresh name.

* `Consistent ds`: the declarations `ds`, in this order, give no name two shapes. Equivalently, every
  shape that is given to a name is the one its first declaration gives (`consistent_iff`).
* `Represents ds t`: what the table `t` knows of the names of the user is what `ds` declare.
* `Phrase.consistent_of_build` and `Phrase.build_attains`: a phrase can be built if and only if its
  declarations are consistent and there are fresh names left.
-/

namespace PsiCalculus

open SymbolTable

/-- Names with the shapes they are declared to have; `none` is a name by itself. -/
abbrev Declarations := List (String × Option Shape)

/-! ## Building a phrase -/

/-- The names in a vector are declared scalars. -/
def Shape.declarations (elements : Shape) : Declarations :=
  elements.names.map fun name => (name, some [])

namespace SymbolTable

/-- Enters a declaration. A name by itself says nothing of an array that is known. -/
def enter (t : SymbolTable) : String × Option Shape → Except Error SymbolTable
  | (name, none) => if t.contains name then .ok t else t.insert name (.array none none)
  | (name, some shape) => t.insert name (.array (some shape) none)

/-- Enters declarations in order. -/
def enterAll (t : SymbolTable) : Declarations → Except Error SymbolTable
  | [] => .ok t
  | d :: ds => do (← t.enter d).enterAll ds

end SymbolTable

namespace Phrase

/-- The declarations of a phrase, from left to right. -/
def declarations : Phrase → Declarations
  | .name n => [(n, none)]
  | .declared n shape => shape.declarations ++ [(n, some shape)]
  | .vector values => values.declarations
  | .unary _ operand => operand.declarations
  | .binary _ left right => left.declarations ++ right.declarations

/-- The tree of a phrase, and the table with what it declares. -/
def build (t : SymbolTable) : Phrase → Except Error (Expr × SymbolTable)
  | .name n => do
    return (.array n none, ← t.enter (n, none))
  | .declared n shape => do
    let t ← t.enterAll shape.declarations
    return (.array n none, ← t.enter (n, some shape))
  | .vector values => do
    let t ← t.enterAll values.declarations
    let (n, t) ← (Grow.fresh (.array (some [.int values.length]) (some values))).run t
    return (.array n none, t)
  | .unary op operand => do
    let (e, t) ← operand.build t
    return (.unary op none e, t)
  | .binary op left right => do
    let (l, t) ← left.build t
    let (r, t) ← right.build t
    return (.binary op none l r, t)

/-- A bound on the number of symbols that a phrase enters. -/
def symbols : Phrase → Nat
  | .name _ => 1
  | .declared _ shape => shape.length + 1
  | .vector values => values.length + 1
  | .unary _ operand => operand.symbols
  | .binary _ left right => left.symbols + right.symbols

end Phrase

/-! ## Consistent declarations -/

namespace Declarations

/-- The declarations that count, where the names in `known` have been declared before: a name by itself
declares nothing once it is known. -/
def effective (known : List String) : Declarations → Declarations
  | [] => []
  | (name, none) :: ds =>
    if name ∈ known then effective known ds else (name, none) :: effective (name :: known) ds
  | (name, some shape) :: ds => (name, some shape) :: effective (name :: known) ds

/-- No name is declared twice with different shapes. -/
def Consistent (ds : Declarations) : Prop :=
  ∀ name shape shape', (name, shape) ∈ effective [] ds → (name, shape') ∈ effective [] ds →
    shape = shape'

/-- The shapes that `later` give are those of the first declarations in `earlier` and `later`. -/
def Agrees (earlier later : Declarations) : Prop :=
  ∀ name shape, (name, some shape) ∈ later → (earlier ++ later).lookup name = some (some shape)

variable {ds ds' : Declarations} {known : List String} {name : String} {shape : Option Shape}

theorem mem_effective_of_some {s : Shape} (h : (name, some s) ∈ ds) :
    (name, some s) ∈ effective known ds := by
  fun_induction effective known ds with
  | case1 => cases h
  | case2 known other ds _ ih => exact ih (by simpa using h)
  | case3 known other ds _ ih => exact .tail _ (ih (by simpa using h))
  | case4 known other s' ds ih =>
    rcases List.mem_cons.1 h with heq | h
    · rw [heq]
      exact .head _
    · exact .tail _ (ih h)

theorem mem_of_mem_effective (h : (name, shape) ∈ effective known ds) : (name, shape) ∈ ds := by
  fun_induction effective known ds with
  | case1 => cases h
  | case2 known other ds _ ih => exact .tail _ (ih h)
  | case3 known other ds _ ih =>
    rcases List.mem_cons.1 h with heq | h
    · rw [heq]
      exact .head _
    · exact .tail _ (ih h)
  | case4 known other s ds ih =>
    rcases List.mem_cons.1 h with heq | h
    · rw [heq]
      exact .head _
    · exact .tail _ (ih h)

/-- The first declaration of a name counts. -/
theorem mem_effective_of_lookup (hn : name ∉ known) (h : ds.lookup name = some shape) :
    (name, shape) ∈ effective known ds := by
  fun_induction effective known ds with
  | case1 => simp at h
  | case2 known other ds hmem ih =>
    have hne : name ≠ other := fun heq => hn (heq ▸ hmem)
    exact ih hn (by simpa [List.lookup_cons, beq_eq_false_iff_ne.2 hne] using h)
  | case3 known other ds hmem ih =>
    by_cases hne : name = other
    · subst hne
      simp only [List.lookup_cons, beq_self_eq_true, Option.some.injEq] at h
      rw [← h]
      exact .head _
    · exact .tail _ (ih (by simp [hn, hne])
        (by simpa [List.lookup_cons, beq_eq_false_iff_ne.2 hne] using h))
  | case4 known other s ds ih =>
    by_cases hne : name = other
    · subst hne
      simp only [List.lookup_cons, beq_self_eq_true, Option.some.injEq] at h
      rw [← h]
      exact .head _
    · exact .tail _ (ih (by simp [hn, hne])
        (by simpa [List.lookup_cons, beq_eq_false_iff_ne.2 hne] using h))

/-- A name by itself counts only if nothing is declared of it before. -/
theorem lookup_of_mem_effective (h : (name, none) ∈ effective known ds) :
    name ∉ known ∧ ds.lookup name = some none := by
  fun_induction effective known ds with
  | case1 => cases h
  | case2 known other ds hmem ih =>
    obtain ⟨hn, hlookup⟩ := ih h
    have hne : name ≠ other := fun heq => hn (heq ▸ hmem)
    exact ⟨hn, by simpa [List.lookup_cons, beq_eq_false_iff_ne.2 hne] using hlookup⟩
  | case3 known other ds hmem ih =>
    rcases List.mem_cons.1 h with heq | h
    · cases heq
      exact ⟨hmem, by simp⟩
    · obtain ⟨hn, hlookup⟩ := ih h
      rw [List.mem_cons, not_or] at hn
      exact ⟨hn.2, by simpa [List.lookup_cons, beq_eq_false_iff_ne.2 hn.1] using hlookup⟩
  | case4 known other s ds ih =>
    obtain ⟨hn, hlookup⟩ := ih (by simpa using h)
    rw [List.mem_cons, not_or] at hn
    exact ⟨hn.2, by simpa [List.lookup_cons, beq_eq_false_iff_ne.2 hn.1] using hlookup⟩

/-- Declarations are consistent if every shape that is given to a name is the one that its first
declaration gives. -/
theorem consistent_iff : Consistent ds ↔ Agrees [] ds := by
  constructor
  · intro h name s hmem
    obtain ⟨shape, hlookup⟩ : ∃ shape, ds.lookup name = some shape := by
      rw [← Option.isSome_iff_exists, List.lookup_isSome_iff]
      exact ⟨_, hmem, by simp⟩
    rw [List.nil_append, hlookup,
      h name shape (some s) (mem_effective_of_lookup (by simp) hlookup) (mem_effective_of_some hmem)]
  · intro h
    have hlookup : ∀ name shape, (name, shape) ∈ effective [] ds → ds.lookup name = some shape := by
      intro name shape hmem
      cases shape with
      | none => exact (lookup_of_mem_effective hmem).2
      | some s => exact h name s (mem_of_mem_effective hmem)
    intro name shape shape' hmem hmem'
    exact Option.some.inj ((hlookup name shape hmem).symm.trans (hlookup name shape' hmem'))

theorem Agrees.left {earlier : Declarations} (h : Agrees earlier (ds ++ ds')) :
    Agrees earlier ds := by
  intro name s hmem
  have hfull := h name s (List.mem_append_left _ hmem)
  rw [← List.append_assoc, List.lookup_append] at hfull
  obtain ⟨shape, hlookup⟩ : ∃ shape, (earlier ++ ds).lookup name = some shape := by
    rw [← Option.isSome_iff_exists, List.lookup_isSome_iff]
    exact ⟨_, List.mem_append_right _ hmem, by simp⟩
  rw [hlookup, Option.some_or] at hfull
  rw [hlookup, hfull]

theorem Agrees.right {earlier : Declarations} (h : Agrees earlier (ds ++ ds')) :
    Agrees (earlier ++ ds) ds' := by
  intro name s hmem
  rw [List.append_assoc]
  exact h name s (List.mem_append_right _ hmem)

end Declarations

/-! ## Tables of declarations -/

namespace SymbolTable

/-- What the table knows of the names of the user is what the declarations say first. -/
def Represents (ds : Declarations) (t : SymbolTable) : Prop :=
  ∀ name, isGenerated name = false → t.get? name = (ds.lookup name).map (Symbol.array · none)

variable {ds : Declarations} {d : String × Option Shape} {t t' : SymbolTable} {bound n : Nat}

theorem Represents.empty : Represents [] empty := fun _ _ => rfl

theorem enter_grows (h : t.enter d = .ok t') : Extends t t' := by
  obtain ⟨name, shape⟩ := d
  cases shape with
  | none =>
    rw [enter] at h
    split at h
    · cases h
      exact .refl _
    · exact insert_grows h
  | some shape => exact insert_grows h

/-- After a declaration the name has an entry, with the shape if one is given. -/
theorem enter_stated {name : String} {shape : Shape} (h : t.enter (name, some shape) = .ok t') :
    t'.get? name = some (.array (some shape) none) :=
  get?_insert_self h

theorem Represents.insert {name : String} {shape : Option Shape} (hr : t.Represents ds)
    (h : t.insert name (.array shape none) = .ok t') : t'.Represents (ds ++ [(name, shape)]) := by
  intro other hu
  rw [List.lookup_append]
  by_cases hne : other = name
  · subst hne
    rw [get?_insert_self h]
    rcases insert_cases h with ⟨-, hget⟩ | hadds
    · rw [hr other hu, Option.map_eq_some_iff] at hget
      obtain ⟨shape', hlookup, heq⟩ := hget
      cases heq
      simp [hlookup]
    · have hnone := hadds.fresh
      rw [hr other hu, Option.map_eq_none_iff] at hnone
      simp [hnone]
  · rw [get?_insert_of_ne h hne, hr other hu]
    simp [List.lookup_cons, beq_eq_false_iff_ne.2 hne]

theorem Represents.enter (hr : t.Represents ds) (h : t.enter d = .ok t') :
    t'.Represents (ds ++ [d]) := by
  obtain ⟨name, shape⟩ := d
  cases shape with
  | some shape => exact hr.insert h
  | none =>
    rw [SymbolTable.enter] at h
    split at h
    · next hc =>
      cases h
      obtain ⟨s, hs⟩ := contains_iff.1 hc
      intro other hu
      rw [hr other hu, List.lookup_append]
      by_cases hne : other = name
      · subst hne
        rw [hr other hu, Option.map_eq_some_iff] at hs
        obtain ⟨shape, hlookup, -⟩ := hs
        simp [hlookup]
      · simp [List.lookup_cons, beq_eq_false_iff_ne.2 hne]
    · exact hr.insert h

/-- An entry under a generated name says nothing of the user's names. -/
theorem Represents.generated {name : String} {s : Symbol} (hr : t.Represents ds)
    (hg : isGenerated name = true) (h : Adds t name s t') : t'.Represents ds := by
  intro other hu
  rw [h.get?_other, hr other hu]
  rintro rfl
  rw [hu] at hg
  cases hg

theorem enterAll_ok (ds' : Declarations) (hr : t.Represents ds) (h : t.enterAll ds' = .ok t') :
    Extends t t' ∧ t'.Represents (ds ++ ds') ∧
      ∀ name shape, (name, some shape) ∈ ds' → t'.get? name = some (.array (some shape) none) := by
  induction ds' generalizing ds t with
  | nil =>
    cases h
    exact ⟨.refl _, by simpa using hr, by simp⟩
  | cons d ds' ih =>
    obtain ⟨t₁, h₁, h⟩ := except_bind_ok.1 h
    obtain ⟨hg, hr', hstated⟩ := ih (hr.enter h₁) h
    refine ⟨(enter_grows h₁).trans hg, by simpa using hr', fun name shape hmem => ?_⟩
    rcases List.mem_cons.1 hmem with rfl | hmem
    · exact hg.get? (enter_stated h₁)
    · exact hstated name shape hmem

/-- A name of the user can be bound to the symbol it has, or to any if it has none. -/
theorem insert_user_attains {name : String} {s : Symbol} (hu : isGenerated name = false)
    (hget : ∀ s', t.get? name = some s' → s' = s) (hroom : t.Room bound (n + 1)) :
    ∃ t', t.insert name s = .ok t' ∧ t'.Room bound n := by
  cases h : t.get? name with
  | some s' =>
    obtain rfl := hget s' h
    exact ⟨t, insert_of_get?_eq_some h, hroom.mono (Nat.le_succ n)⟩
  | none =>
    rcases insert_of_get?_eq_none s h with ⟨t', hins, -⟩ | ⟨-, id, hid, -⟩
    · refine ⟨t', hins, hroom.counted.insert_user hu hins, ?_⟩
      have := hroom.size_le
      rw [size_of_insert hins h]
      omega
    · rw [isGenerated_of_generatedId? hid] at hu
      cases hu

theorem enter_attains (hr : t.Represents ds) (hu : isGenerated d.1 = false)
    (hd : Declarations.Agrees ds [d]) (hroom : t.Room bound (n + 1)) :
    ∃ t', t.enter d = .ok t' ∧ t'.Room bound n := by
  obtain ⟨name, shape⟩ := d
  cases shape with
  | none =>
    rw [enter]
    split
    · exact ⟨t, rfl, hroom.mono (Nat.le_succ n)⟩
    · next hc =>
      refine insert_user_attains hu (fun s' hs => ?_) hroom
      exact absurd (contains_iff.2 ⟨s', hs⟩) hc
  | some shape =>
    refine insert_user_attains hu (fun s' hs => ?_) hroom
    rw [hr name hu, Option.map_eq_some_iff] at hs
    obtain ⟨shape', hlookup, rfl⟩ := hs
    have hfirst := hd name shape (.head _)
    rw [List.lookup_append, hlookup, Option.some_or] at hfirst
    rw [Option.some.inj hfirst]

theorem enterAll_attains (ds' : Declarations) (hr : t.Represents ds)
    (hu : ∀ d ∈ ds', isGenerated d.1 = false) (hd : Declarations.Agrees ds ds')
    (hroom : t.Room bound (ds'.length + n)) : ∃ t', t.enterAll ds' = .ok t' ∧ t'.Room bound n := by
  induction ds' generalizing ds t with
  | nil => exact ⟨t, rfl, by simpa using hroom⟩
  | cons d ds' ih =>
    have hsplit : Declarations.Agrees ds ([d] ++ ds') := hd
    obtain ⟨t₁, h₁, hroom₁⟩ := enter_attains (n := ds'.length + n) hr (hu d (.head _)) hsplit.left
      (hroom.mono (by rw [List.length_cons]; omega))
    obtain ⟨t₂, h₂, hroom₂⟩ := ih (hr.enter h₁) (fun d hd => hu d (.tail _ hd)) hsplit.right hroom₁
    exact ⟨t₂, except_bind_ok.2 ⟨t₁, h₁, h₂⟩, hroom₂⟩

end SymbolTable

/-! ## Phrases that can be built -/

theorem Shape.length_declarations_le (elements : Shape) :
    elements.declarations.length ≤ elements.length := by
  rw [declarations, List.length_map, names]
  exact List.length_filterMap_le _ _

namespace Phrase

variable {ds : Declarations} {t t' : SymbolTable} {e : Expr} {bound n : Nat}

/-- A phrase that is built adds its declarations to the table. -/
theorem build_ok (p : Phrase) (hr : t.Represents ds) (h : p.build t = .ok (e, t')) :
    Extends t t' ∧ t'.Represents (ds ++ p.declarations) ∧ ∀ name shape,
      (name, some shape) ∈ p.declarations → t'.get? name = some (.array (some shape) none) := by
  induction p generalizing ds t t' e with
  | name n =>
    obtain ⟨t₁, h₁, h⟩ := except_bind_ok.1 h
    cases h
    exact ⟨enter_grows h₁, hr.enter h₁, by simp [declarations]⟩
  | declared n shape =>
    obtain ⟨t₁, h₁, h⟩ := except_bind_ok.1 h
    obtain ⟨t₂, h₂, h⟩ := except_bind_ok.1 h
    cases h
    obtain ⟨hg, hr₁, hstated⟩ := enterAll_ok _ hr h₁
    refine ⟨hg.trans (enter_grows h₂), ?_, fun name s hmem => ?_⟩
    · rw [declarations, ← List.append_assoc]
      exact hr₁.enter h₂
    · rcases List.mem_append.1 hmem with hmem | hmem
      · exact (enter_grows h₂).get? (hstated name s hmem)
      · cases List.mem_singleton.1 hmem
        exact enter_stated h₂
  | vector values =>
    obtain ⟨t₁, h₁, h⟩ := except_bind_ok.1 h
    obtain ⟨⟨n, t₂⟩, h₂, h⟩ := except_bind_ok.1 h
    cases h
    obtain ⟨hg, hr₁, hstated⟩ := enterAll_ok _ hr h₁
    obtain ⟨hn, hadds⟩ := Grow.fresh_ok h₂
    exact ⟨hg.trans hadds.grows, hr₁.generated hn hadds,
      fun name s hmem => hadds.grows.get? (hstated name s hmem)⟩
  | unary op p ih =>
    obtain ⟨⟨e₁, t₁⟩, h₁, h⟩ := except_bind_ok.1 h
    cases h
    exact ih hr h₁
  | binary op l r ihl ihr =>
    obtain ⟨⟨e₁, t₁⟩, h₁, h⟩ := except_bind_ok.1 h
    obtain ⟨⟨e₂, t₂⟩, h₂, h⟩ := except_bind_ok.1 h
    cases h
    obtain ⟨hg₁, hr₁, hstated₁⟩ := ihl hr h₁
    obtain ⟨hg₂, hr₂, hstated₂⟩ := ihr hr₁ h₂
    refine ⟨hg₁.trans hg₂, ?_, fun name s hmem => ?_⟩
    · rw [declarations, ← List.append_assoc]
      exact hr₂
    · rcases List.mem_append.1 hmem with hmem | hmem
      · exact hg₂.get? (hstated₁ name s hmem)
      · exact hstated₂ name s hmem

/-- **What can be built is consistent.** -/
theorem consistent_of_build {p : Phrase} (hu : ∀ d ∈ p.declarations, isGenerated d.1 = false)
    (h : p.build .empty = .ok (e, t)) : p.declarations.Consistent := by
  obtain ⟨-, hr, hstated⟩ := p.build_ok .empty h
  rw [Declarations.consistent_iff]
  intro name s hmem
  have hget := hstated name s hmem
  rw [hr name (hu _ hmem), Option.map_eq_some_iff] at hget
  obtain ⟨shape, hlookup, heq⟩ := hget
  cases heq
  exact hlookup

/-- **What agrees with the declarations before it can be built**, as long as there is room for it. -/
theorem build_attains (p : Phrase) (hr : t.Represents ds)
    (hu : ∀ d ∈ p.declarations, isGenerated d.1 = false) (hd : Declarations.Agrees ds p.declarations)
    (hroom : t.Room bound (p.symbols + n)) :
    Attains bound (fun r => r.2.Room bound n) (p.build t) := by
  induction p generalizing ds t n with
  | name m =>
    obtain ⟨t₁, h₁, hroom₁⟩ := enter_attains (n := n) hr (hu _ (.head _)) hd
      (hroom.mono (by rw [symbols]; omega))
    exact .bind_of_ok h₁ (.ok hroom₁)
  | declared m shape =>
    have hle := shape.length_declarations_le
    obtain ⟨t₁, h₁, hroom₁⟩ := enterAll_attains (n := n + 1) shape.declarations hr
      (fun d hd => hu d (List.mem_append_left _ hd)) hd.left (hroom.mono (by rw [symbols]; omega))
    obtain ⟨t₂, h₂, hroom₂⟩ := enter_attains (enterAll_ok _ hr h₁).2.1
      (hu _ (List.mem_append_right _ (.head _))) hd.right hroom₁
    exact .bind_of_ok h₁ (.bind_of_ok h₂ (.ok hroom₂))
  | vector values =>
    have hle := values.length_declarations_le
    obtain ⟨t₁, h₁, hroom₁⟩ := enterAll_attains (n := n + 1) values.declarations hr hu hd
      (hroom.mono (by rw [symbols]; omega))
    exact .bind_of_ok h₁ ((Grow.fresh_attains _ hroom₁).bind fun _ hroom₂ => .ok hroom₂)
  | unary op p ih => exact (ih hr hu hd hroom).bind fun _ hroom => .ok hroom
  | binary op l r ihl ihr =>
    have hl := ihl (n := r.symbols + n) hr (fun d hd => hu d (List.mem_append_left _ hd)) hd.left
      (hroom.mono (by rw [symbols]; omega))
    have hl' : Attains bound (fun a => a.2.Room bound (r.symbols + n) ∧
        a.2.Represents (ds ++ l.declarations)) (l.build t) := by
      refine hl.imp ?_
      rintro ⟨e₁, t₁⟩ h₁ hroom₁
      exact ⟨hroom₁, (l.build_ok hr h₁).2.1⟩
    exact hl'.bind fun a ha =>
      (ihr ha.2 (fun d hd => hu d (List.mem_append_right _ hd)) hd.right ha.1).bind
        fun _ hroom => .ok hroom

end Phrase

end PsiCalculus
