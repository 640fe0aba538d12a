import PsiCalculus.Proofs.Growth

/-!
# Room for symbols

The number of a generated name is a word, so that a table runs out of names at some point
(`Error.exhausted`). The names of a compilation are numbered one after the other: no number exceeds
the size of the table (`SymbolTable.Counted`), and the point is reached when the table has as many
symbols as there are words.

* `Attains bound P x`: the computation `x` succeeds with a result in `P`, or it runs out of names,
  and then the bound exceeds the last word.
* `SymbolTable.Takes t n`: the table `t` has names for exactly as many symbols as that, or more.
  `Grow.fresh_takes`: it takes a symbol if and only if it has a name for one.
* `SymbolTable.Room bound n t`: `n` more symbols can be entered into `t` within the bound.
  `Grow.fresh_attains`: a table that has room for a symbol takes it.
-/

namespace PsiCalculus

/-! ## Computations that succeed -/

/-- The computation succeeds with a result in `P`, or it runs out of names, for which it takes a bound
above the last word. -/
inductive Attains {α : Type} (bound : Nat) (P : α → Prop) : Except Error α → Prop
  | ok {a : α} : P a → Attains bound P (.ok a)
  | exhausted {name : String} : Text.maxWord < bound → Attains bound P (.error (.exhausted name))

namespace Attains

variable {α β : Type} {bound : Nat} {P : α → Prop} {Q : β → Prop} {x : Except Error α}

theorem bind {f : α → Except Error β} (h : Attains bound P x)
    (hf : ∀ a, P a → Attains bound Q (f a)) : Attains bound Q (x >>= f) := by
  cases h with
  | ok ha => exact hf _ ha
  | exhausted hb => exact .exhausted hb

theorem bind_of_ok {f : α → Except Error β} {a : α} (h : x = .ok a) (hf : Attains bound Q (f a)) :
    Attains bound Q (x >>= f) := by
  rw [h]
  exact hf

theorem map {f : α → β} (h : Attains bound P x) (hf : ∀ a, P a → Q (f a)) :
    Attains bound Q (f <$> x) := by
  cases h with
  | ok ha => exact .ok (hf _ ha)
  | exhausted hb => exact .exhausted hb

theorem imp {P' : α → Prop} (h : Attains bound P x) (hP : ∀ a, x = .ok a → P a → P' a) :
    Attains bound P' x := by
  cases h with
  | ok ha => exact .ok (hP _ rfl ha)
  | exhausted hb => exact .exhausted hb

/-- With a bound that words reach, the computation succeeds. -/
theorem exists_ok (h : Attains bound P x) (hb : bound ≤ Text.maxWord) : ∃ a, x = .ok a ∧ P a := by
  cases h with
  | ok ha => exact ⟨_, rfl, ha⟩
  | exhausted hlt => exact absurd hlt (Nat.not_lt.2 hb)

end Attains

section
variable {σ α β : Type} {bound : Nat} {s s' : σ} {P : α × σ → Prop} {Q : β × σ → Prop}
  {x : StateT σ (Except Error) α} {f : α → StateT σ (Except Error) β}

theorem Attains.bind_run (h : Attains bound P (x.run s))
    (hf : ∀ a s', P (a, s') → Attains bound Q ((f a).run s')) :
    Attains bound Q ((x >>= f).run s) := by
  rw [StateT.run_bind]
  exact h.bind fun p hp => hf p.1 p.2 hp

theorem Attains.bind_run_of_ok {a : α} (h : x.run s = .ok (a, s'))
    (hf : Attains bound Q ((f a).run s')) : Attains bound Q ((x >>= f).run s) := by
  rwa [run_bind_of_ok h]

end

/-! ## Numbers in use -/

namespace SymbolTable

/-- As long as words can number the symbols, the counter exceeds every number in use and is not above
the number of symbols. -/
def Counted (t : SymbolTable) : Prop :=
  t.size ≤ Text.maxWord → t.counter ≤ t.size ∧
    ∀ name ∈ t.names, ∀ id, generatedId? name = some id → id < t.counter

theorem Counted.empty : Counted empty := fun _ => ⟨Nat.le_refl 0, by simp [SymbolTable.empty, names]⟩

theorem counter_of_insert {t t' : SymbolTable} {name : String} {symbol : Symbol}
    (h : t.insert name symbol = .ok t') (hnone : t.get? name = none) :
    t.counterAfter name = .ok t'.counter := by
  unfold insert at h
  rw [hnone] at h
  obtain ⟨counter, hcounter, ht⟩ := except_bind_ok.1 h
  cases ht
  exact hcounter

/-- The next number of a counted table is its size. -/
theorem Counted.freshId_eq {t : SymbolTable} (h : t.Counted) (hsize : t.size ≤ Text.maxWord) :
    t.freshId = t.size := by
  obtain ⟨hcounter, hids⟩ := h hsize
  have hfree : ∀ kind, t.contains (generatedName kind t.size) = false := by
    intro kind
    rw [Bool.eq_false_iff]
    intro hc
    obtain ⟨s, hs⟩ := contains_iff.1 hc
    have hlt := hids _ (mem_names_of_get? hs) t.size (by rw [generatedId?_generatedName, if_pos hsize])
    omega
  have hisFree : t.isFree t.size = true := by simp [isFree, hfree]
  rw [freshId, Nat.max_eq_right hcounter, List.range'_succ, List.find?_cons_of_pos hisFree,
    Option.getD_some]

/-- Fresh numbers are looked for from the counter and the size on. -/
theorem start_le_freshId (t : SymbolTable) : max t.counter t.size ≤ t.freshId := by
  rw [freshId]
  cases hfind : (List.range' (max t.counter t.size) (t.size + 1)).find? t.isFree with
  | none =>
    rw [Option.getD_none]
    omega
  | some id =>
    obtain ⟨i, -, rfl⟩ := List.mem_range'.1 (List.mem_of_find?_eq_some hfind)
    rw [Option.getD_some]
    omega

theorem counter_le_freshId (t : SymbolTable) : t.counter ≤ t.freshId :=
  Nat.le_trans (Nat.le_max_left _ _) t.start_le_freshId

theorem size_le_freshId (t : SymbolTable) : t.size ≤ t.freshId :=
  Nat.le_trans (Nat.le_max_right _ _) t.start_le_freshId

theorem size_of_insert {t t' : SymbolTable} {name : String} {symbol : Symbol}
    (h : t.insert name symbol = .ok t') (hnone : t.get? name = none) : t'.size = t.size + 1 := by
  rcases entries_of_insert h with ⟨hget, -⟩ | ⟨-, he⟩
  · simp [hnone] at hget
  · simp [size, he]

theorem names_of_insert {t t' : SymbolTable} {name : String} {symbol : Symbol}
    (h : t.insert name symbol = .ok t') (hnone : t.get? name = none) : t'.names = t.names ++ [name] := by
  rcases entries_of_insert h with ⟨hget, -⟩ | ⟨-, he⟩
  · simp [hnone] at hget
  · simp [names, he]

/-- A table stays counted under a name of the user. -/
theorem Counted.insert_user {t t' : SymbolTable} (hc : t.Counted) {name : String} {symbol : Symbol}
    (hu : isGenerated name = false) (h : t.insert name symbol = .ok t') : t'.Counted := by
  cases hget : t.get? name with
  | some s =>
    rcases entries_of_insert h with ⟨-, rfl⟩ | ⟨hnone, -⟩
    · exact hc
    · simp [hget] at hnone
  | none =>
    intro hsize
    rw [size_of_insert h hget] at hsize
    obtain ⟨hcounter, hids⟩ := hc (by omega)
    have hid : generatedId? name = none := by
      by_contra hne
      obtain ⟨id, hid⟩ := Option.ne_none_iff_exists'.1 hne
      simp [isGenerated_of_generatedId? hid] at hu
    have hafter := counter_of_insert h hget
    simp only [counterAfter, hid, Except.ok.injEq] at hafter
    rw [size_of_insert h hget, names_of_insert h hget, ← hafter]
    refine ⟨by omega, fun n hn id hid' => ?_⟩
    rcases List.mem_append.1 hn with hn | hn
    · exact hids n hn id hid'
    · rw [List.mem_singleton.1 hn, hid] at hid'
      cases hid'

/-- A table stays counted under the next generated name. -/
theorem Counted.insert_fresh {t t' : SymbolTable} (hc : t.Counted) {kind : SymbolKind}
    {symbol : Symbol} (h : t.insert (t.freshName kind) symbol = .ok t') : t'.Counted := by
  have hget := freshName_get? t kind
  intro hsize
  rw [size_of_insert h hget] at hsize
  obtain ⟨hcounter, hids⟩ := hc (by omega)
  have hfresh := hc.freshId_eq (by omega)
  have hid : generatedId? (t.freshName kind) = some t.size := by
    rw [freshName, hfresh, generatedId?_generatedName, if_pos (by omega)]
  have hafter := counter_of_insert h hget
  rw [counterAfter, hid] at hafter
  simp only [show t.size < Text.maxWord by omega, if_true, Except.ok.injEq] at hafter
  rw [size_of_insert h hget, names_of_insert h hget, ← hafter]
  refine ⟨by omega, fun n hn id hid' => ?_⟩
  rcases List.mem_append.1 hn with hn | hn
  · have := hids n hn id hid'
    omega
  · rw [List.mem_singleton.1 hn, hid] at hid'
    cases hid'
    omega

/-- The table takes `n` more symbols within the bound. -/
structure Room (bound n : Nat) (t : SymbolTable) : Prop where
  counted : t.Counted
  size_le : t.size + n ≤ bound

theorem Room.mono {bound m n : Nat} {t : SymbolTable} (h : t.Room bound n) (hle : m ≤ n) :
    t.Room bound m := ⟨h.counted, by have := h.size_le; omega⟩

/-- The table has names for `n` more symbols. A table beyond the last word has outgrown the numbers:
its new names carry none, and there is no end of them. -/
def Takes (t : SymbolTable) (n : Nat) : Prop := t.size ≤ Text.maxWord → t.size + n ≤ Text.maxWord

section
variable {t t' : SymbolTable} {m n : Nat}

theorem Takes.zero (t : SymbolTable) : t.Takes 0 := id

theorem Takes.mono (h : t.Takes n) (hle : m ≤ n) : t.Takes m := by
  unfold Takes at *
  omega

/-- What a table takes after `m` symbols. -/
theorem Takes.after (h : t.Takes m) (hsize : t'.size = t.size + m) : t'.Takes n ↔ t.Takes (m + n) := by
  unfold Takes at *
  omega

theorem Takes.lt_of_not (h : ¬ t.Takes n) : Text.maxWord < t.size + n := by
  unfold Takes at h
  omega

end

end SymbolTable

open SymbolTable

/-! ## Operations that enter a symbol -/

namespace Grow

variable {t t' : SymbolTable} {bound n : Nat}

theorem fresh_run (symbol : Symbol) : (fresh symbol).run t =
    (fun t' => (t.freshName symbol.kind, t')) <$> t.insert (t.freshName symbol.kind) symbol := by
  have hrun : (fresh symbol).run t = (t.insert (t.freshName symbol.kind) symbol >>= fun t' =>
      .ok (t', t)) >>= fun p => .ok (t.freshName symbol.kind, p.1) := rfl
  rw [hrun]
  cases t.insert (t.freshName symbol.kind) symbol <;> rfl

/-- A symbol is entered under the next name, unless the number of that name is the last word. -/
theorem fresh_outcome (symbol : Symbol) :
    (t.freshId ≠ Text.maxWord ∧ ∃ t', (fresh symbol).run t = .ok (t.freshName symbol.kind, t')) ∨
      (t.freshId = Text.maxWord ∧
        (fresh symbol).run t = .error (.exhausted (t.freshName symbol.kind))) := by
  have hget := freshName_get? t symbol.kind
  have hid := generatedId?_generatedName symbol.kind t.freshId
  rw [fresh_run]
  rcases insert_of_get?_eq_none symbol hget with ⟨t', hins, -⟩ | ⟨herr, id, hid', hle⟩
  · refine .inl ⟨fun hlast => ?_, t', by rw [hins]; rfl⟩
    have hcounter := counter_of_insert hins hget
    rw [if_pos (Nat.le_of_eq hlast)] at hid
    rw [counterAfter, freshName, hid, hlast] at hcounter
    simp at hcounter
  · refine .inr ⟨?_, by rw [herr]; rfl⟩
    rw [freshName, hid] at hid'
    split at hid'
    · next hword =>
      cases hid'
      exact Nat.le_antisymm hword hle
    · cases hid'

theorem fresh_counted {symbol : Symbol} {name : String} (hc : t.Counted)
    (h : (fresh symbol).run t = .ok (name, t')) : t'.Counted := by
  rw [fresh_run] at h
  cases hins : t.insert (t.freshName symbol.kind) symbol with
  | error e => rw [hins] at h; cases h
  | ok t₁ =>
    rw [hins] at h
    cases h
    exact hc.insert_fresh hins

theorem array_counted {shape value : Option Shape} {e : Expr} (hc : t.Counted)
    (h : (array shape value).run t = .ok (e, t')) : t'.Counted := by
  simp only [array, bind_ok, pure_ok, Prod.mk.injEq] at h
  obtain ⟨name, _, hf, rfl, rfl⟩ := h
  exact fresh_counted hc hf

/-- **A counted table takes a symbol exactly if it has a name for it.** -/
theorem fresh_takes (symbol : Symbol) :
    ((t.Counted → t.Takes 1) ∧ ∃ name t', (fresh symbol).run t = .ok (name, t') ∧
        t'.size = t.size + 1) ∨
      ((t.Counted → ¬ t.Takes 1) ∧ ∃ name, (fresh symbol).run t = .error (.exhausted name)) := by
  -- the next number of a counted table is its size
  rcases fresh_outcome (t := t) symbol with ⟨hne, t', hrun⟩ | ⟨hlast, hrun⟩
  · refine .inl ⟨fun hc hsize => ?_, _, t', hrun, ?_⟩
    · rw [hc.freshId_eq hsize] at hne
      omega
    · rw [size, (fresh_ok hrun).2.entries, List.length_append]
      rfl
  · refine .inr ⟨fun hc htakes => ?_, _, hrun⟩
    have hsize := hlast ▸ t.size_le_freshId
    rw [hc.freshId_eq hsize] at hlast
    have := htakes hsize
    omega

/-- **A table that has room takes a symbol** under a fresh name. -/
theorem fresh_attains (symbol : Symbol) (h : t.Room bound (n + 1)) :
    Attains bound (fun p => p.2.Room bound n) ((fresh symbol).run t) := by
  have hsize := h.size_le
  rcases fresh_takes symbol with ⟨-, name, t', hrun, hsize'⟩ | ⟨hfull, name, hrun⟩
  · rw [hrun]
    exact .ok ⟨fresh_counted h.counted hrun, by show t'.size + n ≤ bound; omega⟩
  · rw [hrun]
    have := Takes.lt_of_not (hfull h.counted)
    exact .exhausted (by omega)

theorem array_attains (shape value : Option Shape) (h : t.Room bound (n + 1)) :
    Attains bound (fun p => p.2.Room bound n) ((array shape value).run t) :=
  (fresh_attains (.array shape value) h).bind_run fun _ _ hroom => .ok hroom

end Grow

theorem Context.grow_attains {bound : Nat} {c : Context} {build : Grow Expr} {P : Context → Prop}
    (h : Attains bound (fun p => P ⟨p.1, p.2⟩) (build.run c.table)) :
    Attains bound P (c.grow build) := h.bind fun _ hp => .ok hp

end PsiCalculus
