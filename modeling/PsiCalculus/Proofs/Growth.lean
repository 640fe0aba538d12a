import PsiCalculus.Context
import Mathlib.Data.List.Forall2
import Mathlib.Data.List.Nodup
import Mathlib.Data.List.Perm.Subperm

/-!
# Tables that grow

Every stage enters symbols into the table it is given and takes none out. `SymbolTable.Extends t t'`
says that `t'` starts with the entries of `t`; what `t` knows of a name, `t'` knows too
(`Extends.get?`).

* `freshName_get?`: the name a table generates is not in the table. Of `size + 1` candidate numbers
  one is carried by no entry, since each entry carries at most one (`generatedName_inj`).
* `Adds t name symbol t'`: `t'` is `t` with a symbol under a name that `t` does not have. Each
  operation of `Grow` is one such step, under a generated name (`Grow.fresh_ok`, `Grow.vector_ok`,
  `Grow.index_ok`, ..).
* `bind_ok`, `pure_ok`, ..: what a successful run of a computation with state consists of.
-/

namespace PsiCalculus

/-! ## Runs that succeed -/

theorem except_bind_ok {α β : Type} {x : Except Error α} {f : α → Except Error β} {b : β} :
    x >>= f = .ok b ↔ ∃ a, x = .ok a ∧ f a = .ok b := by
  cases x with
  | error e => simp [bind, Except.bind]
  | ok a => simp [bind, Except.bind]

theorem mapM_eq_some {α β : Type} {f : α → Option β} : ∀ {as : List α} {bs : List β},
    as.mapM f = some bs ↔ List.Forall₂ (fun a b => f a = some b) as bs
  | [], bs => by simp [eq_comm]
  | a :: as, bs => by
    simp only [List.mapM_cons, bind, pure, Option.bind_eq_some_iff, Option.some.injEq, mapM_eq_some]
    constructor
    · rintro ⟨b, hb, bs', hbs', rfl⟩
      exact .cons hb hbs'
    · rintro (_ | ⟨hb, hbs'⟩)
      exact ⟨_, hb, _, hbs', rfl⟩

theorem exists_of_mem_right {α β : Type} {R : α → β → Prop} {as : List α} {bs : List β}
    (h : List.Forall₂ R as bs) {b : β} (hb : b ∈ bs) : ∃ a ∈ as, R a b := by
  induction h with
  | nil => cases hb
  | cons hab _ ih =>
    rcases List.mem_cons.1 hb with rfl | hb
    · exact ⟨_, .head _, hab⟩
    · obtain ⟨a, ha, hr⟩ := ih hb
      exact ⟨a, .tail _ ha, hr⟩

theorem except_mapM_ok {α β : Type} {f : α → Except Error β} : ∀ {as : List α} {bs : List β},
    as.mapM f = .ok bs → List.Forall₂ (fun a b => f a = .ok b) as bs
  | [], _, h => by
    cases h
    exact .nil
  | a :: as, bs, h => by
    rw [List.mapM_cons] at h
    obtain ⟨b, hb, h⟩ := except_bind_ok.1 h
    obtain ⟨bs', hbs', h⟩ := except_bind_ok.1 h
    cases h
    exact .cons hb (except_mapM_ok hbs')

theorem except_mapM_run {α β : Type} {f : α → Except Error β} : ∀ {as : List α},
    (∀ a ∈ as, ∃ b, f a = .ok b) → ∃ bs, as.mapM f = .ok bs
  | [], _ => ⟨[], rfl⟩
  | a :: as, h => by
    obtain ⟨b, hb⟩ := h a (.head _)
    obtain ⟨bs, hbs⟩ := except_mapM_run fun a' ha' => h a' (.tail _ ha')
    refine ⟨b :: bs, ?_⟩
    rw [List.mapM_cons, hb, hbs]
    rfl

section
variable {σ α β : Type} {s : σ}

theorem bind_ok {x : StateT σ (Except Error) α} {f : α → StateT σ (Except Error) β} {r : β × σ} :
    (x >>= f).run s = .ok r ↔ ∃ a s', x.run s = .ok (a, s') ∧ (f a).run s' = .ok r := by
  rw [StateT.run_bind, except_bind_ok]
  exact ⟨fun ⟨p, hp, hr⟩ => ⟨p.1, p.2, hp, hr⟩, fun ⟨a, s', hp, hr⟩ => ⟨(a, s'), hp, hr⟩⟩

theorem run_bind_of_ok {x : StateT σ (Except Error) α} {f : α → StateT σ (Except Error) β} {a : α}
    {s' : σ} (h : x.run s = .ok (a, s')) : (x >>= f).run s = (f a).run s' := by
  rw [StateT.run_bind, h]
  rfl

theorem pure_ok {a : α} {r : α × σ} :
    (pure a : StateT σ (Except Error) α).run s = .ok r ↔ (a, s) = r := by
  rw [StateT.run_pure]
  simp [pure, Except.pure]

theorem throw_ok {e : Error} {r : α × σ} :
    (throw e : StateT σ (Except Error) α).run s = .ok r ↔ False := by
  simp [StateT.run, throw, throwThe, MonadExceptOf.throw, StateT.lift, bind, Except.bind]

theorem get_ok {r : σ × σ} : (get : StateT σ (Except Error) σ).run s = .ok r ↔ (s, s) = r := by
  simp [StateT.run_get, pure, Except.pure]

theorem set_ok {s' : σ} {r : PUnit × σ} :
    (set s' : StateT σ (Except Error) PUnit).run s = .ok r ↔ (⟨⟩, s') = r := by
  simp [StateT.run_set, pure, Except.pure]

theorem modify_ok {f : σ → σ} {r : PUnit × σ} :
    (modify f : StateT σ (Except Error) PUnit).run s = .ok r ↔ (⟨⟩, f s) = r := by
  simp [StateT.run_modify, pure, Except.pure]

theorem lift_ok {x : Except Error α} {r : α × σ} :
    (liftM x : StateT σ (Except Error) α).run s = .ok r ↔ ∃ a, x = .ok a ∧ (a, s) = r := by
  cases x with
  | error e => simp [liftM, monadLift, MonadLift.monadLift, StateT.lift, StateT.run, bind, Except.bind]
  | ok a =>
    simp [liftM, monadLift, MonadLift.monadLift, StateT.lift, StateT.run, bind, Except.bind, pure,
      Except.pure]

end

/-! ## Generated names -/

theorem drop_stem (kind : SymbolKind) (l : List Char) : (kind.stem.toList ++ l).drop 2 = l := by
  cases kind <;> rfl

theorem head?_stem (kind : SymbolKind) (l : List Char) :
    (kind.stem.toList ++ l).head? = some '_' := by
  cases kind <;> rfl

theorem toString_nat_inj {m n : Nat} (h : toString m = toString n) : m = n := by
  have hdigits : Nat.toDigits 10 m = Nat.toDigits 10 n := by
    rw [Nat.toString_eq_repr, Nat.toString_eq_repr] at h
    rw [← Nat.toList_repr, ← Nat.toList_repr, h]
  simpa using congrArg (fun ds => Nat.ofDigitChars 10 ds 0) hdigits

theorem generatedName_toList (kind : SymbolKind) (id : Nat) :
    (generatedName kind id).toList = kind.stem.toList ++ (toString id).toList := by
  simp [generatedName]

theorem generatedName_inj {kind kind' : SymbolKind} {id id' : Nat}
    (h : generatedName kind id = generatedName kind' id') : id = id' := by
  have hl := congrArg String.toList h
  rw [generatedName_toList, generatedName_toList] at hl
  have hdigits := congrArg (List.drop 2) hl
  rw [drop_stem, drop_stem] at hdigits
  exact toString_nat_inj (String.toList_injective hdigits)

theorem isGenerated_generatedName (kind : SymbolKind) (id : Nat) :
    isGenerated (generatedName kind id) = true := by
  unfold isGenerated
  rw [generatedName_toList, head?_stem]
  rfl

theorem decimal_toDigits (id : Nat) : Text.decimal (Nat.toDigits 10 id) = id :=
  Nat.ofDigitChars_toDigits (by decide) (by decide)

theorem isDigit_of_mem_toDigits {id : Nat} {c : Char} (h : c ∈ Nat.toDigits 10 id) :
    Text.isDigit c = true := by
  have hdigit := Nat.isDigit_of_mem_toDigits (by decide) (by decide) h
  simp only [Char.isDigit, Bool.and_eq_true, decide_eq_true_eq] at hdigit
  simp only [Text.isDigit, Bool.and_eq_true, decide_eq_true_eq]
  exact hdigit

/-- The digits of a number denote it, if a word holds it. -/
theorem word?_toDigits (id : Nat) :
    Text.word? (Nat.toDigits 10 id) = if id ≤ Text.maxWord then some id else none := by
  have hall : (Nat.toDigits 10 id).all Text.isDigit = true :=
    List.all_eq_true.2 fun c hc => isDigit_of_mem_toDigits hc
  have hne : (Nat.toDigits 10 id).isEmpty = false := by
    simp
  unfold Text.word?
  split
  · next rest heq =>
    rw [heq] at hall
    simp [Text.isDigit] at hall
  · simp [hall, hne, decimal_toDigits]

theorem generatedId?_generatedName (kind : SymbolKind) (id : Nat) :
    generatedId? (generatedName kind id) = if id ≤ Text.maxWord then some id else none := by
  rw [← word?_toDigits, ← Nat.toList_repr, ← Nat.toString_eq_repr]
  unfold generatedId?
  rw [generatedName_toList]
  cases kind <;> rfl

/-- Only generated names have numbers. -/
theorem isGenerated_of_generatedId? {name : String} {id : Nat} (h : generatedId? name = some id) :
    isGenerated name = true := by
  unfold generatedId? at h
  unfold isGenerated
  split at h
  · simp [*]
  · simp [*]
  · cases h

/-! ## Look-up -/

namespace SymbolTable

theorem mem_entries_of_get? {t : SymbolTable} {name : String} {s : Symbol}
    (h : t.get? name = some s) : (name, s) ∈ t.entries := by
  obtain ⟨l₁, l₂, hl, -⟩ := List.lookup_eq_some_iff.1 h
  simp [hl]

theorem mem_names_of_get? {t : SymbolTable} {name : String} {s : Symbol}
    (h : t.get? name = some s) : name ∈ t.names :=
  List.mem_map_of_mem (mem_entries_of_get? h)

theorem contains_iff {t : SymbolTable} {name : String} :
    t.contains name = true ↔ ∃ s, t.get? name = some s := by
  rw [contains, Option.isSome_iff_exists]

theorem get?_eq_none_iff {t : SymbolTable} {name : String} :
    t.get? name = none ↔ name ∉ t.names := by
  rw [get?, List.lookup_eq_none_iff, names]
  simp only [List.mem_map, not_exists, not_and]
  exact ⟨fun h p hp he => by simpa [he] using h p hp,
    fun h p hp => by simpa using fun he => h p hp he.symm⟩

theorem exists_get? {t : SymbolTable} {name : String} (h : name ∈ t.names) :
    ∃ s, t.get? name = some s := by
  cases hs : t.get? name with
  | none => exact absurd h (get?_eq_none_iff.1 hs)
  | some s => exact ⟨s, rfl⟩

theorem get_ok {t : SymbolTable} {name : String} {s : Symbol} :
    t.get name = .ok s ↔ t.get? name = some s := by
  unfold get
  split <;> simp_all

/-- In a table without repeated names every entry is found. -/
theorem get?_of_mem {t : SymbolTable} (hn : t.names.Nodup) {name : String} {s : Symbol}
    (h : (name, s) ∈ t.entries) : t.get? name = some s := by
  obtain ⟨l₁, l₂, hl⟩ := List.append_of_mem h
  rw [get?, List.lookup_eq_some_iff]
  refine ⟨l₁, l₂, hl, fun p hp => ?_⟩
  rw [names, hl, List.map_append, List.nodup_append] at hn
  have hne : p.1 ≠ name := hn.2.2 p.1 (List.mem_map_of_mem hp) name (by simp)
  exact bne_iff_ne.2 hne.symm

/-! ## Freshness -/

/-- One of the names of number `id`, the one in the table if only one is. -/
def takenName (t : SymbolTable) (id : Nat) : String :=
  if t.contains (generatedName .array id) then generatedName .array id else generatedName .index id

theorem takenName_inj {t : SymbolTable} {id id' : Nat} (h : t.takenName id = t.takenName id') :
    id = id' := by
  unfold takenName at h
  split at h <;> split at h <;> exact generatedName_inj h

theorem takenName_mem {t : SymbolTable} {id : Nat} (h : t.isFree id = false) :
    t.takenName id ∈ t.names := by
  have hmem : ∀ name, t.contains name = true → name ∈ t.names := fun name hc =>
    mem_names_of_get? (contains_iff.1 hc).choose_spec
  unfold takenName
  split
  · next hc => exact hmem _ hc
  · next hc => exact hmem _ (by simpa [isFree, hc] using h)

/-- Not all of `size + 1` numbers are taken. -/
theorem exists_free (t : SymbolTable) (start : Nat) :
    ∃ id ∈ List.range' start (t.size + 1), t.isFree id = true := by
  apply Classical.byContradiction
  intro hall
  have htaken : ∀ id ∈ List.range' start (t.size + 1), t.isFree id = false := by
    intro id hid
    cases hf : t.isFree id with
    | false => rfl
    | true => exact absurd ⟨id, hid, hf⟩ hall
  have hnodup : ((List.range' start (t.size + 1)).map t.takenName).Nodup :=
    List.Nodup.map (fun _ _ h => takenName_inj h) List.nodup_range'
  have hsub : (List.range' start (t.size + 1)).map t.takenName ⊆ t.names := by
    intro name hname
    obtain ⟨id, hid, rfl⟩ := List.mem_map.1 hname
    exact takenName_mem (htaken id hid)
  have hlen := (List.subperm_of_subset hnodup hsub).length_le
  simp only [names, size, List.length_map, List.length_range'] at hlen
  omega

theorem freshId_free (t : SymbolTable) : t.isFree t.freshId = true := by
  unfold freshId
  cases hf : (List.range' (max t.counter t.size) (t.size + 1)).find? t.isFree with
  | some id =>
    simp only [hf, Option.getD_some]
    exact List.find?_some hf
  | none =>
    obtain ⟨id, hid, hfree⟩ := exists_free t (max t.counter t.size)
    exact absurd hfree (List.find?_eq_none.1 hf id hid)

/-- **A generated name is new.** -/
theorem freshName_get? (t : SymbolTable) (kind : SymbolKind) : t.get? (t.freshName kind) = none := by
  have hfree := freshId_free t
  simp only [isFree, Bool.and_eq_true, Bool.not_eq_true', contains, Option.isSome_eq_false_iff,
    Option.isNone_iff_eq_none] at hfree
  cases kind
  · exact hfree.1
  · exact hfree.2

/-! ## The order of growth -/

/-- `t'` starts with the entries of `t`. -/
def Extends (t t' : SymbolTable) : Prop := t.entries <+: t'.entries

theorem Extends.refl (t : SymbolTable) : Extends t t := List.prefix_refl _

theorem Extends.trans {t₁ t₂ t₃ : SymbolTable} (h₁ : Extends t₁ t₂) (h₂ : Extends t₂ t₃) :
    Extends t₁ t₃ := List.IsPrefix.trans h₁ h₂

theorem Extends.get? {t t' : SymbolTable} (h : Extends t t') {name : String} {s : Symbol}
    (hs : t.get? name = some s) : t'.get? name = some s := by
  obtain ⟨l, hl⟩ := h
  rw [SymbolTable.get?] at hs ⊢
  rw [← hl, List.lookup_append, hs, Option.some_or]

theorem Extends.mem_names {t t' : SymbolTable} (h : Extends t t') {name : String}
    (hn : name ∈ t.names) : name ∈ t'.names := by
  obtain ⟨l, hl⟩ := h
  simp only [names, ← hl, List.map_append, List.mem_append]
  exact .inl hn

/-- `t'` is `t` with `symbol` under a name that `t` does not have. -/
structure Adds (t : SymbolTable) (name : String) (symbol : Symbol) (t' : SymbolTable) : Prop where
  fresh : t.get? name = none
  entries : t'.entries = t.entries ++ [(name, symbol)]

namespace Adds

variable {t t' : SymbolTable} {name : String} {symbol : Symbol}

theorem grows (h : Adds t name symbol t') : Extends t t' := ⟨_, h.entries.symm⟩

theorem get?_self (h : Adds t name symbol t') : t'.get? name = some symbol := by
  have hf := h.fresh
  rw [get?] at hf ⊢
  rw [h.entries, lookup_append_singleton, hf]
  simp

theorem get?_other (h : Adds t name symbol t') {other : String} (hne : other ≠ name) :
    t'.get? other = t.get? other := by
  rw [get?, get?, h.entries, lookup_append_singleton]
  simp [hne]

theorem nodup (h : Adds t name symbol t') (hn : t.names.Nodup) : t'.names.Nodup := by
  have hnew := get?_eq_none_iff.1 h.fresh
  rw [names, h.entries, List.map_append, List.nodup_append]
  refine ⟨hn, by simp, fun a ha b hb => ?_⟩
  simp only [List.map_cons, List.map_nil, List.mem_singleton] at hb
  rintro rfl
  exact hnew (hb ▸ ha)

end Adds

/-- A name without a symbol can be bound, unless no word follows its number. -/
theorem insert_of_get?_eq_none {t : SymbolTable} {name : String} (symbol : Symbol)
    (h : t.get? name = none) :
    (∃ t', t.insert name symbol = .ok t' ∧ Adds t name symbol t') ∨
      (t.insert name symbol = .error (.exhausted name) ∧
        ∃ id, generatedId? name = some id ∧ Text.maxWord ≤ id) := by
  unfold insert counterAfter
  rw [h]
  cases hid : generatedId? name with
  | none => exact .inl ⟨_, rfl, h, rfl⟩
  | some id =>
    by_cases hlt : id < Text.maxWord
    · simp only [hlt, if_true]
      exact .inl ⟨_, rfl, h, rfl⟩
    · simp only [hlt, if_false]
      exact .inr ⟨rfl, id, rfl, Nat.le_of_not_lt hlt⟩

end SymbolTable

open SymbolTable

/-! ## Operations that grow a table -/

namespace Grow

variable {t t' : SymbolTable}

theorem fresh_ok {symbol : Symbol} {name : String}
    (h : (fresh symbol).run t = .ok (name, t')) :
    isGenerated name = true ∧ Adds t name symbol t' := by
  simp only [fresh, bind_ok, get_ok, lift_ok, set_ok, pure_ok, Prod.mk.injEq] at h
  obtain ⟨_, _, ⟨rfl, rfl⟩, _, _, ⟨t₁, hins, rfl, rfl⟩, _, _, ⟨-, rfl⟩, rfl, rfl⟩ := h
  refine ⟨isGenerated_generatedName _ _, freshName_get? _ _, ?_⟩
  rcases entries_of_insert hins with ⟨hget, -⟩ | ⟨-, he⟩
  · simp [freshName_get?] at hget
  · exact he

theorem array_ok {shape value : Option Shape} {e : Expr}
    (h : (array shape value).run t = .ok (e, t')) :
    ∃ name, isGenerated name = true ∧ Adds t name (.array shape value) t' ∧
      e = .array name shape := by
  simp only [array, bind_ok, pure_ok, Prod.mk.injEq] at h
  obtain ⟨name, _, hf, rfl, rfl⟩ := h
  exact ⟨name, (fresh_ok hf).1, (fresh_ok hf).2, rfl⟩

theorem vector_ok {values : Shape} {e : Expr} (h : (vector values).run t = .ok (e, t')) :
    ∃ name, isGenerated name = true ∧
      Adds t name (.array (some [.int values.length]) (some values)) t' ∧
      e = .array name (some [.int values.length]) :=
  array_ok h

theorem scalar_ok {value : Element} {e : Expr} (h : (scalar value).run t = .ok (e, t')) :
    ∃ name, isGenerated name = true ∧ Adds t name (.array (some []) (some [value])) t' ∧
      e = .array name (some []) :=
  array_ok h

theorem index_ok {bound : Element} {name : String} (h : (index bound).run t = .ok (name, t')) :
    isGenerated name = true ∧ Adds t name (.index bound) t' :=
  fresh_ok h

theorem symbol_ok {name : String} {s : Symbol} :
    (symbol name).run t = .ok (s, t') ↔ t.get? name = some s ∧ t' = t := by
  simp only [symbol, bind_ok, PsiCalculus.get_ok, lift_ok, SymbolTable.get_ok, Prod.mk.injEq]
  constructor
  · rintro ⟨_, _, ⟨rfl, rfl⟩, _, hg, rfl, rfl⟩
    exact ⟨hg, rfl⟩
  · rintro ⟨hg, rfl⟩
    exact ⟨_, _, ⟨rfl, rfl⟩, _, hg, rfl, rfl⟩

end Grow

theorem Context.grow_ok {c c' : Context} {build : Grow Expr} :
    c.grow build = .ok c' ↔ build.run c.table = .ok (c'.tree, c'.table) := by
  simp only [Context.grow, except_bind_ok, pure, Except.pure, Except.ok.injEq]
  constructor
  · rintro ⟨p, hp, rfl⟩
    exact hp
  · intro h
    exact ⟨_, h, rfl⟩

end PsiCalculus
