import PsiCalculus.Merge
import PsiCalculus.Proofs.LoopNest.Arguments
import PsiCalculus.Proofs.Merge.Agreement
import Mathlib.Data.Set.Function

/-!
# Renaming and uniting tables

The two steps of a merge, apart from each other: numbering the names of a side, and entering its
symbols under their new names.

* `Renumbers`: the new names of one side. User names stay; a generated name takes the name of its
  partner, or a number that no other name without a partner has.
* `insertAll_run`: entries whose new names do not clash are all entered.
* `AgreeSymbols.mapNames_eq`: symbols that agree are equal once they are renamed. So the entries of
  the right side that are there already, under a shared name or under that of a partner, are the same.
-/

namespace PsiCalculus

open SymbolTable

namespace Merge

/-! ## Symbols that agree are equal after renaming -/

section
variable {pairs : Pairs} {f g : String → String}

@[simp] theorem mapNames_named (f : String → String) (name : String) :
    (Element.named name).mapNames f = .named (f name) := rfl

/-- Both renamings keep user names, and the second gives a name the new name of its partner. -/
structure Respects (pairs : Pairs) (f g : String → String) : Prop where
  left : ∀ name, isGenerated name = false → f name = name
  right : ∀ name, isGenerated name = false → g name = name
  pairs : ∀ p ∈ pairs, g p.1 = f p.2

theorem Agree.mapNames_eq (hr : Respects pairs f g) {a b : Element} (h : Agree pairs a b) :
    a.mapNames f = b.mapNames g := by
  cases h with
  | int n => rfl
  | user hu => rw [mapNames_named, mapNames_named, hr.left _ hu, hr.right _ hu]
  | paired _ _ hm => rw [mapNames_named, mapNames_named, hr.pairs _ hm]

theorem mapNamesAll_eq (hr : Respects pairs f g) {l r : Shape}
    (h : List.Forall₂ (Agree pairs) l r) : Element.mapNamesAll f l = Element.mapNamesAll g r := by
  induction h with
  | nil => rfl
  | cons hab _ ih => rw [Element.mapNamesAll, Element.mapNamesAll, hab.mapNames_eq hr, ih]

theorem AgreeShapes.mapNames_eq (hr : Respects pairs f g) {l r : Option Shape}
    (h : AgreeShapes pairs l r) : Element.mapNamesShape f l = Element.mapNamesShape g r := by
  cases h with
  | none => rfl
  | some h => rw [Element.mapNamesShape, Element.mapNamesShape, mapNamesAll_eq hr h]

theorem AgreeSymbols.mapNames_eq (hr : Respects pairs f g) {l r : Symbol}
    (h : AgreeSymbols pairs l r) : l.mapNames f = r.mapNames g := by
  rw [Symbol.mapNames, Symbol.mapNames, h.kind, h.elementType, h.shape.mapNames_eq hr,
    h.value.mapNames_eq hr]

end

/-! ## New names -/

theorem newName_of_lookup {names : Renaming} {name new : String}
    (h : names.lookup name = some new) : newName names name = new := by
  simp [newName, h]

/-- What numbering does to the entries: partners are taken over, and the other generated names get
numbers of their own from `first` on and below `next`. -/
structure Renumbers (partners : Renaming) (entries : List (String × Symbol)) (first : Nat)
    (names : Renaming) (next : Nat) : Prop where
  user : ∀ name, isGenerated name = false → names.lookup name = none
  partner : ∀ {name s new}, (name, s) ∈ entries → isGenerated name = true →
    partners.lookup name = some new → names.lookup name = some new
  number : ∀ {name s}, (name, s) ∈ entries → isGenerated name = true →
    partners.lookup name = none →
    ∃ id, first ≤ id ∧ id < next ∧ names.lookup name = some (generatedName s.kind id)
  distinct : ∀ {a b s s'}, (a, s) ∈ entries → (b, s') ∈ entries → isGenerated a = true →
    isGenerated b = true → partners.lookup a = none → partners.lookup b = none →
    names.lookup a = names.lookup b → a = b
  first_le : first ≤ next
  next_le : next ≤ first + entries.length

theorem lookup_self (names : Renaming) (key new : String) :
    ((key, new) :: names).lookup key = some new := by
  simp

theorem lookup_of_ne (names : Renaming) {key new name : String} (h : name ≠ key) :
    ((key, new) :: names).lookup name = names.lookup name := by
  simp [List.lookup_cons, beq_eq_false_iff_ne.2 h]

section
variable {partners names : Renaming} {rest : List (String × Symbol)} {first next : Nat}
  {key new : String} {symbol : Symbol}

theorem ne_key (hkey : key ∉ rest.map Prod.fst) {name : String} {s : Symbol}
    (h : (name, s) ∈ rest) : name ≠ key := by
  rintro rfl
  exact hkey (List.mem_map.2 ⟨_, h, rfl⟩)

/-- A user name gets no new name. -/
theorem Renumbers.keep (hgen : isGenerated key = false)
    (h : Renumbers partners rest first names next) :
    Renumbers partners ((key, symbol) :: rest) first names next := by
  have hrest : ∀ {name s}, (name, s) ∈ (key, symbol) :: rest → isGenerated name = true →
      (name, s) ∈ rest := by
    intro name s hm hg
    rcases List.mem_cons.1 hm with heq | hm
    · cases heq
      rw [hgen] at hg
      cases hg
    · exact hm
  refine ⟨h.user, fun hm hg => h.partner (hrest hm hg) hg, fun hm hg => h.number (hrest hm hg) hg,
    fun ha hb hga hgb => h.distinct (hrest ha hga) (hrest hb hgb) hga hgb, h.first_le, ?_⟩
  have hle := h.next_le
  rw [List.length_cons]
  omega

/-- A name with a partner takes its name. -/
theorem Renumbers.take (hkey : key ∉ rest.map Prod.fst) (hgen : isGenerated key = true)
    (hnew : partners.lookup key = some new) (h : Renumbers partners rest first names next) :
    Renumbers partners ((key, symbol) :: rest) first ((key, new) :: names) next := by
  have hrest : ∀ {name s}, (name, s) ∈ (key, symbol) :: rest → partners.lookup name = none →
      (name, s) ∈ rest := by
    intro name s hm hp
    rcases List.mem_cons.1 hm with heq | hm
    · cases heq
      rw [hnew] at hp
      cases hp
    · exact hm
  refine ⟨fun name hu => ?_, fun {name s p} hm hg hp => ?_, fun hm hg hp => ?_,
    fun ha hb hga hgb hpa hpb heq => ?_, h.first_le, ?_⟩
  · rw [lookup_of_ne _ (by rintro rfl; simp [hgen] at hu)]
    exact h.user name hu
  · rcases List.mem_cons.1 hm with heq | hm
    · cases heq
      rw [lookup_self, ← hp, hnew]
    · rw [lookup_of_ne _ (ne_key hkey hm)]
      exact h.partner hm hg hp
  · rw [lookup_of_ne _ (ne_key hkey (hrest hm hp))]
    exact h.number (hrest hm hp) hg hp
  · rw [lookup_of_ne _ (ne_key hkey (hrest ha hpa)),
      lookup_of_ne _ (ne_key hkey (hrest hb hpb))] at heq
    exact h.distinct (hrest ha hpa) (hrest hb hpb) hga hgb hpa hpb heq
  · have hle := h.next_le
    rw [List.length_cons]
    omega

/-- A generated name without a partner gets the first number, and the rest larger ones. -/
theorem Renumbers.count (hkey : key ∉ rest.map Prod.fst) (hgen : isGenerated key = true)
    (hnone : partners.lookup key = none) (h : Renumbers partners rest (first + 1) names next) :
    Renumbers partners ((key, symbol) :: rest) first
      ((key, generatedName symbol.kind first) :: names) next := by
  have hlater : ∀ {name s}, (name, s) ∈ rest → isGenerated name = true →
      partners.lookup name = none → names.lookup name ≠ some (generatedName symbol.kind first) := by
    intro name s hm hg hp heq
    obtain ⟨id, hid, -, hlook⟩ := h.number hm hg hp
    have := generatedName_inj (Option.some.inj (hlook.symm.trans heq))
    omega
  have hfirst := h.first_le
  refine ⟨fun name hu => ?_, fun {name s p} hm hg hp => ?_, fun hm hg hp => ?_,
    fun ha hb hga hgb hpa hpb heq => ?_, by omega, ?_⟩
  · rw [lookup_of_ne _ (by rintro rfl; simp [hgen] at hu)]
    exact h.user name hu
  · rcases List.mem_cons.1 hm with heq | hm
    · cases heq
      rw [hnone] at hp
      cases hp
    · rw [lookup_of_ne _ (ne_key hkey hm)]
      exact h.partner hm hg hp
  · rcases List.mem_cons.1 hm with heq | hm
    · cases heq
      exact ⟨first, Nat.le_refl _, by omega, lookup_self ..⟩
    · obtain ⟨id, hid, hlt, hlook⟩ := h.number hm hg hp
      rw [lookup_of_ne _ (ne_key hkey hm)]
      exact ⟨id, by omega, hlt, hlook⟩
  · rcases List.mem_cons.1 ha with hak | ha <;> rcases List.mem_cons.1 hb with hbk | hb
    · cases hak
      cases hbk
      rfl
    · cases hak
      rw [lookup_self, lookup_of_ne _ (ne_key hkey hb)] at heq
      exact absurd heq.symm (hlater hb hgb hpb)
    · cases hbk
      rw [lookup_self, lookup_of_ne _ (ne_key hkey ha)] at heq
      exact absurd heq (hlater ha hga hpa)
    · rw [lookup_of_ne _ (ne_key hkey ha), lookup_of_ne _ (ne_key hkey hb)] at heq
      exact h.distinct ha hb hga hgb hpa hpb heq
  · have hle := h.next_le
    rw [List.length_cons]
    omega

end

theorem renumber_renumbers (partners : Renaming) (entries : List (String × Symbol)) (first : Nat)
    (hn : (entries.map Prod.fst).Nodup) :
    Renumbers partners entries first (renumber partners first entries).1
      (renumber partners first entries).2 := by
  fun_induction renumber partners first entries with
  | case1 first => exact ⟨fun _ _ => rfl, nofun, nofun, nofun, Nat.le_refl _, Nat.le_refl _⟩
  | case2 first key symbol rest hgen new hnew names next hrec ih =>
    have hn' := List.nodup_cons.1 hn
    rw [hrec] at ih
    exact (ih hn'.2).take hn'.1 hgen hnew
  | case3 first key symbol rest hgen hnone names next hrec ih =>
    have hn' := List.nodup_cons.1 hn
    rw [hrec] at ih
    exact (ih hn'.2).count hn'.1 hgen hnone
  | case4 first key symbol rest hgen ih =>
    exact (ih (List.nodup_cons.1 hn).2).keep (by simpa using hgen)

/-! ## Entering renamed symbols -/

/-- The table with the entries under their new names, and nothing else that is new. -/
structure Enters (names : Renaming) (t : SymbolTable) (entries : List (String × Symbol))
    (t' : SymbolTable) : Prop where
  grows : Extends t t'
  nodup : t.names.Nodup → t'.names.Nodup
  get? : ∀ e ∈ entries, t'.get? (newName names e.1) = some (e.2.mapNames (newName names))
  names : ∀ name ∈ t'.names, name ∈ t.names ∨ ∃ e ∈ entries, newName names e.1 = name

section
variable {names : Renaming} {t t₁ t' : SymbolTable} {e : String × Symbol}
  {rest : List (String × Symbol)}

theorem Enters.cons (hins : t.insert (newName names e.1) (e.2.mapNames (newName names)) = .ok t₁)
    (h : Enters names t₁ rest t') : Enters names t (e :: rest) t' := by
  have hself := h.grows.get? (get?_insert_self hins)
  rcases entries_of_insert hins with ⟨-, rfl⟩ | ⟨hnone, hentries⟩
  · refine ⟨h.grows, h.nodup, List.forall_mem_cons.2 ⟨hself, h.get?⟩, fun name hn => ?_⟩
    exact (h.names name hn).imp_right fun ⟨e', he', heq⟩ => ⟨e', .tail _ he', heq⟩
  · have hadds : Adds t _ _ t₁ := ⟨hnone, hentries⟩
    refine ⟨hadds.grows.trans h.grows, fun hn => h.nodup (hadds.nodup hn),
      List.forall_mem_cons.2 ⟨hself, h.get?⟩, fun name hn => ?_⟩
    rcases h.names name hn with hn | ⟨e', he', heq⟩
    · rw [SymbolTable.names, hentries, List.map_append, List.mem_append] at hn
      exact hn.imp_right fun hn => ⟨e, .head _, (List.mem_singleton.1 hn).symm⟩
    · exact .inr ⟨e', .tail _ he', heq⟩

/-- The new names of two entries are the same only if the renamed symbols are. -/
def Consistent (names : Renaming) (entries : List (String × Symbol)) : Prop :=
  ∀ e ∈ entries, ∀ e' ∈ entries, newName names e.1 = newName names e'.1 →
    e.2.mapNames (newName names) = e'.2.mapNames (newName names)

/-- What the table has under the new name of an entry is the renamed symbol. -/
def Compatible (names : Renaming) (t : SymbolTable) (entries : List (String × Symbol)) : Prop :=
  ∀ e ∈ entries, ∀ s, t.get? (newName names e.1) = some s → s = e.2.mapNames (newName names)

theorem Compatible.insert (hc : Compatible names t (e :: rest)) (hs : Consistent names (e :: rest))
    (hins : t.insert (newName names e.1) (e.2.mapNames (newName names)) = .ok t₁) :
    Compatible names t₁ rest := by
  intro e' he' s hget
  by_cases heq : newName names e'.1 = newName names e.1
  · rw [heq, get?_insert_self hins] at hget
    rw [← Option.some.inj hget]
    exact hs e (.head _) e' (.tail _ he') heq.symm
  · rw [get?_insert_of_ne hins heq] at hget
    exact hc e' (.tail _ he') s hget

end

/-- Entries that clash neither with the table nor with each other are all entered, unless the
numbers run out. -/
theorem insertAll_run {names : Renaming} : ∀ {entries : List (String × Symbol)} {t : SymbolTable},
    Compatible names t entries → Consistent names entries →
    (∃ e ∈ entries, insertAll names t entries = .error (.exhausted (newName names e.1)) ∧
      ∃ id, generatedId? (newName names e.1) = some id ∧ Text.maxWord ≤ id) ∨
    ∃ t', insertAll names t entries = .ok t' ∧ Enters names t entries t'
  | [], t, _, _ => .inr ⟨t, rfl, .refl t, id, nofun, fun _ hn => .inl hn⟩
  | e :: rest, t, hc, hs => by
    have hstep : (t.insert (newName names e.1) (e.2.mapNames (newName names)) =
          .error (.exhausted (newName names e.1)) ∧
          ∃ id, generatedId? (newName names e.1) = some id ∧ Text.maxWord ≤ id) ∨
        ∃ t₁, t.insert (newName names e.1) (e.2.mapNames (newName names)) = .ok t₁ := by
      cases hget : t.get? (newName names e.1) with
      | some s =>
        obtain rfl := hc e (.head _) s hget
        exact .inr ⟨t, insert_of_get?_eq_some hget⟩
      | none =>
        rcases insert_of_get?_eq_none (e.2.mapNames (newName names)) hget with ⟨t₁, h, -⟩ | h
        · exact .inr ⟨t₁, h⟩
        · exact .inl h
    rcases hstep with ⟨hins, hid⟩ | ⟨t₁, hins⟩
    · exact .inl ⟨e, .head _, by simp [insertAll, hins, bind, Except.bind], hid⟩
    · have hrec : insertAll names t (e :: rest) = insertAll names t₁ rest := by
        simp [insertAll, hins, bind, Except.bind]
      rw [hrec]
      rcases insertAll_run (hc.insert hs hins)
          (fun a ha b hb => hs a (.tail _ ha) b (.tail _ hb)) with ⟨a, ha, herr⟩ | ⟨t', hok, hent⟩
      · exact .inl ⟨a, .tail _ ha, herr⟩
      · exact .inr ⟨t', hok, hent.cons hins⟩

end Merge

end PsiCalculus
