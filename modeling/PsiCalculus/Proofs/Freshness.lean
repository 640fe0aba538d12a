import PsiCalculus.Proofs.Capacity

/-!
# Names are never used twice

A table is filled by requests: to enter a symbol under a given name, or under a fresh name. A request
may be refused, and then the table stays as it is. Whatever the requests, with names that look
generated among them, the table remembers which numbers are in use.

* `SymbolTable.Numbered`: no name is bound twice, and the counter exceeds the numbers of all names.
  `Numbered.insert`: an insertion keeps it.
* `SymbolTable.insert_spec`: what an insertion does, in each of three cases.
* `SymbolTable.Run t requests drawn t'`: the requests lead from `t` to `t'` and draw fresh numbers.
  `Run.draws`: the numbers of a run lie between the counters, one above the other.
* `SymbolTable.run_fresh`: what holds after every run from the empty table.
-/

namespace PsiCalculus

namespace SymbolTable

/-! ## Insertions -/

/-- No name is bound twice, and the counter exceeds the numbers of all names that are bound. -/
structure Numbered (t : SymbolTable) : Prop where
  nodup : t.names.Nodup
  lt_counter : ∀ name ∈ t.names, ∀ id, generatedId? name = some id → id < t.counter

theorem Numbered.empty : Numbered empty := ⟨List.nodup_nil, fun _ h => nomatch h⟩

/-- A word follows the number of the name, if it has one. -/
def Numberable (name : String) : Prop := ∀ id, generatedId? name = some id → id < Text.maxWord

instance Numberable.decidable (name : String) : Decidable (Numberable name) :=
  decidable_of_iff (∀ id ∈ generatedId? name, id < Text.maxWord) (by simp [Numberable])

/-- **What an insertion does**: a name with the same symbol is left alone, a name with another symbol
is a conflict, and a new name is entered after all others. -/
theorem insert_spec {name : String} (hname : Numberable name) (t : SymbolTable) (symbol : Symbol) :
    (t.get? name = some symbol → t.insert name symbol = .ok t) ∧
    (∀ existing, t.get? name = some existing → existing ≠ symbol →
      t.insert name symbol = .error (.conflict name existing.text symbol.text)) ∧
    (t.get? name = none → ∃ t', t.insert name symbol = .ok t' ∧
      t'.entries = t.entries ++ [(name, symbol)]) := by
  refine ⟨insert_of_get?_eq_some, fun existing hget hne => by simp [insert, hget, hne], fun hget => ?_⟩
  rcases insert_of_get?_eq_none symbol hget with ⟨t', hins, hadds⟩ | ⟨-, id, hid, hle⟩
  · exact ⟨t', hins, hadds.entries⟩
  · exact absurd (hname id hid) (Nat.not_lt.2 hle)

/-- The counter does not fall, and it comes to exceed the number of the name. -/
theorem counter_insert {t t' : SymbolTable} {name : String} {symbol : Symbol}
    (h : t.insert name symbol = .ok t') (hget : t.get? name = none) :
    t.counter ≤ t'.counter ∧ ∀ id, generatedId? name = some id → id < t'.counter := by
  have hafter := counter_of_insert h hget
  unfold counterAfter at hafter
  split at hafter
  · next hid =>
    rw [← Except.ok.inj hafter]
    exact ⟨Nat.le_refl _, fun id h => nomatch hid.symm.trans h⟩
  · next id hid =>
    split at hafter
    · rw [← Except.ok.inj hafter]
      refine ⟨Nat.le_max_left _ _, fun id' hid' => ?_⟩
      cases hid.symm.trans hid'
      exact Nat.le_max_right _ _
    · cases hafter

/-- **An insertion keeps the numbers.** -/
theorem Numbered.insert {t t' : SymbolTable} (ht : t.Numbered) {name : String} {symbol : Symbol}
    (h : t.insert name symbol = .ok t') : t'.Numbered ∧ t.counter ≤ t'.counter := by
  cases hget : t.get? name with
  | some existing =>
    rcases entries_of_insert h with ⟨-, rfl⟩ | ⟨hnone, -⟩
    · exact ⟨ht, Nat.le_refl _⟩
    · cases hget.symm.trans hnone
  | none =>
    have hnames := names_of_insert h hget
    obtain ⟨hle, hlt⟩ := counter_insert h hget
    refine ⟨⟨?_, fun other hother id hid => ?_⟩, hle⟩
    · rw [hnames, ← List.concat_eq_append]
      exact ht.nodup.concat (get?_eq_none_iff.1 hget)
    · rw [hnames, List.mem_append] at hother
      rcases hother with hother | hother
      · exact Nat.lt_of_lt_of_le (ht.lt_counter other hother id hid) hle
      · exact hlt id (List.mem_singleton.1 hother ▸ hid)

end SymbolTable

/-! ## Requests -/

/-- A symbol to be entered into a table: under a name that is given, or under a fresh name of a kind. -/
inductive Request where
  | named (name : String) (symbol : Symbol)
  | fresh (kind : SymbolKind) (symbol : Symbol)

namespace Request

/-- The symbol that is entered. -/
def symbol : Request → Symbol
  | named _ symbol | fresh _ symbol => symbol

/-- The name that it is entered under. -/
def name (t : SymbolTable) : Request → String
  | named name _ => name
  | fresh kind _ => t.freshName kind

/-- The number that is drawn for a fresh name. -/
def drawn (t : SymbolTable) : Request → List Nat
  | named _ _ => []
  | fresh _ _ => [t.freshId]

/-- A word follows the number of the name: no word follows a fresh number beyond the last one. -/
def Admissible (t : SymbolTable) : Request → Prop
  | named name _ => SymbolTable.Numberable name
  | fresh _ _ => t.freshId < Text.maxWord

instance Admissible.decidable (t : SymbolTable) : (r : Request) → Decidable (r.Admissible t)
  | named name _ => inferInstanceAs (Decidable (SymbolTable.Numberable name))
  | fresh _ _ => inferInstanceAs (Decidable (t.freshId < Text.maxWord))

end Request

namespace SymbolTable

/-- The table after a request; one that is refused leaves it as it is. -/
def serve (t : SymbolTable) (r : Request) : SymbolTable :=
  match t.insert (r.name t) r.symbol with
  | .ok t' => t'
  | .error _ => t

/-- Requests that lead from a table to another, and the fresh numbers that they draw. -/
inductive Run : SymbolTable → List Request → List Nat → SymbolTable → Prop
  | nil {t : SymbolTable} : Run t [] [] t
  | cons {t t' : SymbolTable} {r : Request} {rs : List Request} {ids : List Nat} : r.Admissible t →
      Run (t.serve r) rs ids t' → Run t (r :: rs) (r.drawn t ++ ids) t'

section
variable {t t' : SymbolTable}

theorem serve_ok {r : Request} (h : t.insert (r.name t) r.symbol = .ok t') : t.serve r = t' := by
  rw [serve, h]

theorem serve_error {r : Request} {e : Error} (h : t.insert (r.name t) r.symbol = .error e) :
    t.serve r = t := by
  rw [serve, h]

theorem serve_extends (t : SymbolTable) (r : Request) : Extends t (t.serve r) := by
  unfold serve
  split
  · next hins =>
    rcases entries_of_insert hins with ⟨-, rfl⟩ | ⟨-, he⟩
    · exact .refl _
    · exact ⟨_, he.symm⟩
  · exact .refl _

theorem Numbered.serve (ht : t.Numbered) (r : Request) :
    (t.serve r).Numbered ∧ t.counter ≤ (t.serve r).counter := by
  unfold SymbolTable.serve
  split
  · next hins => exact ht.insert hins
  · exact ⟨ht, Nat.le_refl _⟩

/-- A number that is drawn was not below the counter and is below it afterwards. -/
theorem draw_bounds {r : Request} (hr : r.Admissible t) :
    ∀ id ∈ r.drawn t, t.counter ≤ id ∧ id < (t.serve r).counter := by
  intro id hid
  cases r with
  | named => cases hid
  | fresh kind symbol =>
    obtain rfl := List.mem_singleton.1 hid
    have hnumber : generatedId? (t.freshName kind) = some t.freshId := by
      rw [freshName, generatedId?_generatedName, if_pos (Nat.le_of_lt hr)]
    have hname : Numberable (t.freshName kind) := by
      intro id hid
      cases hnumber.symm.trans hid
      exact hr
    obtain ⟨t₁, hins, -⟩ := (insert_spec hname t symbol).2.2 (freshName_get? t kind)
    rw [serve_ok (r := .fresh kind symbol) hins]
    exact ⟨t.counter_le_freshId, (counter_insert hins (freshName_get? t kind)).2 _ hnumber⟩

namespace Run

variable {rs : List Request} {ids : List Nat}

theorem step {t₁ : SymbolTable} {r : Request} {ids' : List Nat} (h : Run t₁ rs ids t')
    (hr : r.Admissible t) (hdrawn : r.drawn t ++ ids = ids') (hserve : t.serve r = t₁) :
    Run t (r :: rs) ids' t' := by
  subst hdrawn hserve
  exact .cons hr h

theorem extends_table (h : Run t rs ids t') : Extends t t' := by
  induction h with
  | nil => exact .refl _
  | cons _ _ ih => exact (serve_extends _ _).trans ih

/-- **A run keeps the numbers**, and those it draws lie between the counters, one above the other. -/
theorem draws (h : Run t rs ids t') (ht : t.Numbered) :
    t'.Numbered ∧ t.counter ≤ t'.counter ∧ ids.Pairwise (· < ·) ∧
      ∀ id ∈ ids, t.counter ≤ id ∧ id < t'.counter := by
  induction h with
  | nil => exact ⟨ht, Nat.le_refl _, .nil, fun _ h => nomatch h⟩
  | @cons t t' r rs ids hr _ ih =>
    obtain ⟨hnumbered, hle⟩ := ht.serve r
    obtain ⟨ht', hle', hpairwise, hids⟩ := ih hnumbered
    have hdrawn := draw_bounds hr
    refine ⟨ht', Nat.le_trans hle hle',
      List.pairwise_append.2 ⟨?_, hpairwise, fun id hid id' hid' => ?_⟩, fun id hid => ?_⟩
    · cases r with
      | named => exact .nil
      | fresh => exact List.pairwise_singleton _ _
    · exact Nat.lt_of_lt_of_le (hdrawn id hid).2 (hids id' hid').1
    · rcases List.mem_append.1 hid with hid | hid
      · exact ⟨(hdrawn id hid).1, Nat.lt_of_lt_of_le (hdrawn id hid).2 hle'⟩
      · exact ⟨Nat.le_trans hle (hids id hid).1, (hids id hid).2⟩

end Run

end

/-- **No fresh name is used twice.** After every run from the empty table, of which requests may have
been refused, the order of insertion lists each bound name once, the counter exceeds the numbers of
all bound names, the next fresh number is carried by none of them, and the fresh numbers that were
drawn increase. An insertion then leaves the table, is refused for a conflict, or adds to its end,
and so what was entered stays in its place in all that follows. -/
theorem run_fresh {rs : List Request} {ids : List Nat} {t : SymbolTable} (h : Run empty rs ids t) :
    (t.names.Nodup ∧ ∀ name, name ∈ t.names ↔ ∃ symbol, t.get? name = some symbol) ∧
    (∀ name ∈ t.names, ∀ id, generatedId? name = some id → id < t.counter) ∧
    (∀ kind, t.get? (generatedName kind t.freshId) = none) ∧
    ids.Pairwise (· < ·) ∧
    (∀ name symbol, Numberable name →
      (t.get? name = some symbol → t.insert name symbol = .ok t) ∧
      (∀ existing, t.get? name = some existing → existing ≠ symbol →
        t.insert name symbol = .error (.conflict name existing.text symbol.text) ∧
        t.serve (.named name symbol) = t) ∧
      (t.get? name = none → ∃ t', t.insert name symbol = .ok t' ∧
        t'.entries = t.entries ++ [(name, symbol)])) ∧
    ∀ rs' ids' t', Run t rs' ids' t' → t.entries <+: t'.entries := by
  obtain ⟨hnumbered, -, hpairwise, -⟩ := h.draws .empty
  refine ⟨⟨hnumbered.nodup, fun name => ⟨exists_get?, fun ⟨_, hs⟩ => mem_names_of_get? hs⟩⟩,
    hnumbered.lt_counter, freshName_get? t, hpairwise, fun name symbol hname => ?_,
    fun _ _ _ h' => h'.extends_table⟩
  obtain ⟨hsame, hconflict, hnew⟩ := insert_spec hname t symbol
  exact ⟨hsame, fun existing hget hne => ⟨hconflict existing hget hne,
    serve_error (r := .named name symbol) (hconflict existing hget hne)⟩, hnew⟩

/-- A name that looks generated, a fresh array, a conflict, and a fresh index. -/
theorem run_fresh_conflict : ∃ t, Run empty [.named "_a+07" (.array (some []) none),
      .fresh .array (.array none none), .named "_a8" (.array (some []) none),
      .fresh .index (.index (.int 3))] [8, 9] t ∧
    t.names = ["_a+07", "_a8", "_i9"] ∧ t.names.Nodup ∧ [8, 9].Pairwise (· < ·) ∧
    ∀ kind, t.get? (generatedName kind t.freshId) = none := by
  let t₁ : SymbolTable := ⟨[("_a+07", .array (some []) none)], 8⟩
  let t₂ : SymbolTable := ⟨t₁.entries ++ [("_a8", .array none none)], 9⟩
  let t₃ : SymbolTable := ⟨t₂.entries ++ [("_i9", .index (.int 3))], 10⟩
  have hindex : Run t₂ [.fresh .index (.index (.int 3))] [9] t₃ :=
    Run.nil.step (by decide +kernel) (by decide +kernel) (by decide +kernel)
  have hconflict : Run t₂ [.named "_a8" (.array (some []) none), .fresh .index (.index (.int 3))]
      [9] t₃ := hindex.step (by decide +kernel) (by decide +kernel) (by decide +kernel)
  have harray : Run t₁ [.fresh .array (.array none none), .named "_a8" (.array (some []) none),
      .fresh .index (.index (.int 3))] [8, 9] t₃ :=
    hconflict.step (by decide +kernel) (by decide +kernel) (by decide +kernel)
  have hrun := harray.step (t := empty) (r := .named "_a+07" (.array (some []) none))
    (by decide +kernel) rfl (by decide +kernel)
  obtain ⟨⟨hnodup, -⟩, -, hfree, hpairwise, -⟩ := run_fresh hrun
  exact ⟨t₃, hrun, by decide, hnodup, hpairwise, hfree⟩

end SymbolTable

end PsiCalculus
