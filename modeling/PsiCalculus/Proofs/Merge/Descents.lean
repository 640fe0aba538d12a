import Mathlib.Order.Bounds.Defs
import PsiCalculus.Proofs.Merge.Joined

/-!
# Searches that end

Symbols may depend on each other in circles, so neither the search for the names a context needs nor the
comparison of two symbols gets smaller at every step. The search ends because it visits a name once.
The comparison ends because it pairs the names before it descends to their symbols.

* `Runs left right c pairs descents ending`: how the comparison `c` goes, without a bound on how deep it
  nests. `descents` lists the names of the right side it descended at, in order. `RunsAll` is the same
  for the shared names of two tables, one after another.
* `Runs.keys`: the names descended at are the ones newly paired; so no name is descended at twice
  (`Runs.fresh`, `RunsAll.fresh`).
* `agreeSymbols_traced`: with more nesting allowed than symbols of the right table are left unpaired, the
  comparison goes as `Runs` says, so the bound that it computes with is never met (`agreeNames_traced`).
* `Context.search_ends`: both searches end, and what they find.
-/

namespace PsiCalculus

open SymbolTable

theorem SymbolTable.unvisited_le (t : SymbolTable) (visited : List String) :
    t.unvisited visited ≤ t.size :=
  List.countP_le_length

theorem SymbolTable.unvisited_mono (t : SymbolTable) {visited visited' : List String}
    (h : visited ⊆ visited') : t.unvisited visited' ≤ t.unvisited visited := by
  refine List.countP_mono_left fun entry _ hnew => ?_
  simp only [Bool.not_eq_true', List.contains_eq_mem, decide_eq_false_iff_not] at hnew ⊢
  exact fun hmem => hnew (h hmem)

namespace Merge

/-! ## How a comparison goes -/

/-- What is compared. -/
inductive Comparison
  | symbols (l r : Symbol)
  | shapes (l r : Option Shape)
  | elements (ls rs : Shape)
  | element (a b : Element)

/-- A verdict with the pairs made so far, or an error. -/
abbrev Ending := Except Error (Bool × Pairs)

/-- Nothing is compared after a negative verdict or an error. -/
def Ending.Stops (ending : Ending) : Prop := ∀ pairs, ending ≠ .ok (true, pairs)

/-- Two generated names of which the right one has no partner yet. -/
structure NewPair (pairs : Pairs) (a b : Element) (g h : String) : Prop where
  left : a.symbolName? = some g
  right : b.symbolName? = some h
  left_generated : isGenerated g = true
  right_generated : isGenerated h = true
  unpaired : pairs.lookup h = none

/-- Whether two elements agree, if no new pair has to be made to tell. -/
def verdict? (pairs : Pairs) (a b : Element) : Option Bool :=
  match a.symbolName?, b.symbolName? with
  | some g, some h =>
    match isGenerated g, isGenerated h with
    | false, false => some (g == h)
    | true, true => (pairs.lookup h).map (· == g)
    | _, _ => some false
  | _, _ => some (a == b)

/-- How a comparison goes, from the pairs made before it to its ending, and the names of the right side
at which it descends from two elements to the symbols they name. -/
inductive Runs (left right : SymbolTable) : Comparison → Pairs → List String → Ending → Prop
  | differ {l r : Symbol} {pairs : Pairs} : l.kind ≠ r.kind ∨ l.elementType ≠ r.elementType →
      Runs left right (.symbols l r) pairs [] (.ok (false, pairs))
  | symbols {l r : Symbol} {pairs pairs' : Pairs} {ds ds' : List String} {ending : Ending} :
      l.kind = r.kind → l.elementType = r.elementType →
      Runs left right (.shapes l.shape r.shape) pairs ds (.ok (true, pairs')) →
      Runs left right (.shapes l.value r.value) pairs' ds' ending →
      Runs left right (.symbols l r) pairs (ds ++ ds') ending
  | symbolsStop {l r : Symbol} {pairs : Pairs} {ds : List String} {ending : Ending} :
      l.kind = r.kind → l.elementType = r.elementType →
      Runs left right (.shapes l.shape r.shape) pairs ds ending → ending.Stops →
      Runs left right (.symbols l r) pairs ds ending
  | unknown {pairs : Pairs} : Runs left right (.shapes none none) pairs [] (.ok (true, pairs))
  | known {ls rs : Shape} {pairs : Pairs} {ds : List String} {ending : Ending} :
      ls.length = rs.length → Runs left right (.elements ls rs) pairs ds ending →
      Runs left right (.shapes (some ls) (some rs)) pairs ds ending
  | lengths {l r : Option Shape} {pairs : Pairs} : l.map List.length ≠ r.map List.length →
      Runs left right (.shapes l r) pairs [] (.ok (false, pairs))
  | nil {pairs : Pairs} : Runs left right (.elements [] []) pairs [] (.ok (true, pairs))
  | cons {a b : Element} {ls rs : Shape} {pairs pairs' : Pairs} {ds ds' : List String}
      {ending : Ending} : Runs left right (.element a b) pairs ds (.ok (true, pairs')) →
      Runs left right (.elements ls rs) pairs' ds' ending →
      Runs left right (.elements (a :: ls) (b :: rs)) pairs (ds ++ ds') ending
  | consStop {a b : Element} {ls rs : Shape} {pairs : Pairs} {ds : List String} {ending : Ending} :
      Runs left right (.element a b) pairs ds ending → ending.Stops →
      Runs left right (.elements (a :: ls) (b :: rs)) pairs ds ending
  | decided {a b : Element} {pairs : Pairs} {verdict : Bool} : verdict? pairs a b = some verdict →
      Runs left right (.element a b) pairs [] (.ok (verdict, pairs))
  | unbound {a b : Element} {pairs : Pairs} {g h : String} {e : Error} : NewPair pairs a b g h →
      (do let _ ← left.get g; right.get h) = .error e →
      Runs left right (.element a b) pairs [] (.error e)
  | descend {a b : Element} {pairs : Pairs} {g h : String} {l r : Symbol} {ds : List String}
      {ending : Ending} : NewPair pairs a b g h → left.get? g = some l → right.get? h = some r →
      Runs left right (.symbols l r) ((h, g) :: pairs) ds ending →
      Runs left right (.element a b) pairs (h :: ds) ending

variable {left right : SymbolTable} {c : Comparison} {pairs pairs' : Pairs} {ds : List String}

/-- The names descended at are paired, and no others. -/
theorem Runs.keys {ending : Ending} (h : Runs left right c pairs ds ending) {verdict : Bool}
    (hend : ending = .ok (verdict, pairs')) :
    pairs'.map Prod.fst = ds.reverse ++ pairs.map Prod.fst := by
  induction h generalizing verdict pairs' with
  | differ | unknown | lengths | nil | decided =>
    cases hend
    rfl
  | symbols _ _ _ _ ih ih' | cons _ _ ih ih' =>
    rw [ih' hend, ih rfl, List.reverse_append, List.append_assoc]
  | symbolsStop _ _ _ _ ih | known _ _ ih | consStop _ _ ih => exact ih hend
  | unbound => cases hend
  | descend _ _ _ _ ih =>
    rw [ih hend, List.reverse_cons, List.append_assoc]
    rfl

/-- The names are generated names of the right table without a partner, each met once. -/
structure Fresh (right : SymbolTable) (pairs : Pairs) (ds : List String) : Prop where
  nodup : ds.Nodup
  generated : ∀ h ∈ ds, isGenerated h = true
  bound : ∀ h ∈ ds, h ∈ right.names
  unpaired : ∀ h ∈ ds, h ∉ pairs.map Prod.fst

theorem Fresh.nil : Fresh right pairs [] :=
  ⟨List.nodup_nil, List.forall_mem_nil _, List.forall_mem_nil _, List.forall_mem_nil _⟩

theorem Fresh.append {ds' : List String} (h : Fresh right pairs ds)
    (hkeys : pairs'.map Prod.fst = ds.reverse ++ pairs.map Prod.fst) (h' : Fresh right pairs' ds') :
    Fresh right pairs (ds ++ ds') := by
  have hnew : ∀ name ∈ ds', name ∉ ds ∧ name ∉ pairs.map Prod.fst := by
    intro name hn
    simpa [hkeys] using h'.unpaired name hn
  refine ⟨List.nodup_append.2 ⟨h.nodup, h'.nodup, fun a ha b hb hab => ?_⟩,
    List.forall_mem_append.2 ⟨h.generated, h'.generated⟩,
    List.forall_mem_append.2 ⟨h.bound, h'.bound⟩,
    List.forall_mem_append.2 ⟨h.unpaired, fun name hn => (hnew name hn).2⟩⟩
  exact (hnew b hb).1 (hab ▸ ha)

theorem NewPair.fresh {a b : Element} {g h : String} {r : Symbol} (hnew : NewPair pairs a b g h)
    (hget : right.get? h = some r) (hds : Fresh right ((h, g) :: pairs) ds) :
    Fresh right pairs (h :: ds) := by
  have hrest : ∀ name ∈ ds, name ≠ h ∧ name ∉ pairs.map Prod.fst := by
    intro name hn
    simpa using hds.unpaired name hn
  refine ⟨List.nodup_cons.2 ⟨fun hmem => (hrest h hmem).1 rfl, hds.nodup⟩,
    List.forall_mem_cons.2 ⟨hnew.right_generated, hds.generated⟩,
    List.forall_mem_cons.2 ⟨mem_names_of_get? hget, hds.bound⟩,
    List.forall_mem_cons.2 ⟨not_mem_keys hnew.unpaired, fun name hn => (hrest name hn).2⟩⟩

/-- **A comparison descends at a name once**, since the name is paired before. -/
theorem Runs.fresh {ending : Ending} (h : Runs left right c pairs ds ending) :
    Fresh right pairs ds := by
  induction h with
  | differ | unknown | lengths | nil | decided | unbound => exact .nil
  | symbols _ _ h _ ih ih' | cons h _ ih ih' => exact ih.append (h.keys rfl) ih'
  | symbolsStop _ _ _ _ ih | known _ _ ih | consStop _ _ ih => exact ih
  | descend hnew _ hr _ ih => exact hnew.fresh hr ih

/-! ## A bound that is not met -/

/-- As long as fewer symbols of the right table are without a partner than nesting is allowed, the
computation is the comparison. -/
def Traced (left right : SymbolTable) (depth : Nat) (c : Comparison) (x : Pairing Bool) : Prop :=
  ∀ pairs, right.unvisited (pairs.map Prod.fst) < depth →
    ∃ ds, Runs left right c pairs ds (x.run pairs)

theorem Runs.unvisited_le {verdict : Bool}
    (h : Runs left right c pairs ds (.ok (verdict, pairs'))) :
    right.unvisited (pairs'.map Prod.fst) ≤ right.unvisited (pairs.map Prod.fst) := by
  refine right.unvisited_mono ?_
  rw [h.keys rfl]
  exact List.subset_append_right _ _

/-- One comparison after another, the second only if the first is positive. -/
theorem run_and (x y : Pairing Bool) (pairs : Pairs) :
    ((do if ← x then y else return false : Pairing Bool).run pairs = x.run pairs ∧
        Ending.Stops (x.run pairs)) ∨
      ∃ pairs', x.run pairs = .ok (true, pairs') ∧
        (do if ← x then y else return false : Pairing Bool).run pairs = y.run pairs' := by
  have hrun : (do if ← x then y else return false : Pairing Bool).run pairs =
      x.run pairs >>= fun p => (if p.1 then y else pure false : Pairing Bool).run p.2 := rfl
  rw [hrun]
  rcases x.run pairs with e | ⟨verdict, pairs'⟩
  · exact .inl ⟨rfl, fun _ h => by cases h⟩
  · cases verdict with
    | false => exact .inl ⟨rfl, fun _ h => by cases h⟩
    | true => exact .inr ⟨pairs', rfl, rfl⟩

section
variable {depth : Nat} {descend : String → String → Pairing Bool}

/-- What is asked of the computation that compares the symbols of a new pair. -/
def DescendsTo (left right : SymbolTable) (depth : Nat)
    (descend : String → String → Pairing Bool) : Prop :=
  ∀ {pairs : Pairs} {a b : Element} {g h : String}, NewPair pairs a b g h →
    right.unvisited (pairs.map Prod.fst) < depth →
    ∃ ds, Runs left right (.element a b) pairs ds ((descend g h).run ((h, g) :: pairs))

theorem agreeElement_run (descend : String → String → Pairing Bool) (a b : Element) (pairs : Pairs) :
    (∃ verdict, verdict? pairs a b = some verdict ∧
        (agreeElement descend a b).run pairs = .ok (verdict, pairs)) ∨
      ∃ g h, NewPair pairs a b g h ∧
        (agreeElement descend a b).run pairs = (descend g h).run ((h, g) :: pairs) := by
  unfold agreeElement verdict?
  cases hg : a.symbolName? with
  | none => exact .inl ⟨_, rfl, rfl⟩
  | some g =>
    cases hh : b.symbolName? with
    | none => exact .inl ⟨_, rfl, rfl⟩
    | some h =>
      dsimp only
      cases hgg : isGenerated g with
      | false => cases isGenerated h <;> exact .inl ⟨_, rfl, rfl⟩
      | true =>
        cases hhg : isGenerated h with
        | false => exact .inl ⟨_, rfl, rfl⟩
        | true =>
          cases hlook : pairs.lookup h with
          | some partner =>
            refine .inl ⟨partner == g, rfl, bind_ok.2 ⟨_, _, get_ok.2 rfl, ?_⟩⟩
            simp only [hlook]
            exact pure_ok.2 rfl
          | none =>
            refine .inr ⟨g, h, ⟨hg, hh, hgg, hhg, hlook⟩, ?_⟩
            simp only [StateT.run_bind, StateT.run_get, pure_bind, hlook]
            rfl

theorem agreeElement_traced (hd : DescendsTo left right depth descend) (a b : Element) :
    Traced left right depth (.element a b) (agreeElement descend a b) := by
  intro pairs hroom
  rcases agreeElement_run descend a b pairs with ⟨verdict, hv, hrun⟩ | ⟨g, h, hnew, hrun⟩
  · exact ⟨[], hrun ▸ .decided hv⟩
  · exact hrun ▸ hd hnew hroom

theorem agreeElements_traced (hd : DescendsTo left right depth descend) : ∀ {ls rs : Shape},
    ls.length = rs.length → Traced left right depth (.elements ls rs) (agreeElements descend ls rs)
  | [], [], _, _, _ => ⟨[], .nil⟩
  | a :: ls, b :: rs, hlen, pairs, hroom => by
    obtain ⟨ds, hds⟩ := agreeElement_traced hd a b pairs hroom
    rw [agreeElements]
    rcases run_and (agreeElement descend a b) (agreeElements descend ls rs) pairs with
      ⟨hrun, hstop⟩ | ⟨pairs', hhead, hrun⟩
    · exact ⟨ds, hrun ▸ .consStop hds hstop⟩
    · rw [hhead] at hds
      obtain ⟨ds', hds'⟩ := agreeElements_traced hd (Nat.succ.inj hlen) pairs'
        (Nat.lt_of_le_of_lt hds.unvisited_le hroom)
      exact ⟨ds ++ ds', hrun ▸ .cons hds hds'⟩

theorem agreeShapes_traced (hd : DescendsTo left right depth descend) (l r : Option Shape) :
    Traced left right depth (.shapes l r) (agreeShapes descend l r) := by
  intro pairs hroom
  cases l with
  | none =>
    cases r with
    | none => exact ⟨[], .unknown⟩
    | some rs => exact ⟨[], .lengths (by simp)⟩
  | some ls =>
    cases r with
    | none => exact ⟨[], .lengths (by simp)⟩
    | some rs =>
      rw [agreeShapes]
      split
      · next hlen =>
        obtain ⟨ds, hds⟩ := agreeElements_traced hd hlen pairs hroom
        exact ⟨ds, .known hlen hds⟩
      · next hlen => exact ⟨[], .lengths (by simpa using hlen)⟩

theorem compareSymbols_traced (hd : DescendsTo left right depth descend) (l r : Symbol) :
    Traced left right depth (.symbols l r) (compareSymbols descend l r) := by
  intro pairs hroom
  unfold compareSymbols
  split
  · next hne =>
    refine ⟨[], .differ ?_⟩
    simpa using hne
  · next hsame =>
    obtain ⟨hkind, htype⟩ : l.kind = r.kind ∧ l.elementType = r.elementType := by
      simpa using hsame
    obtain ⟨ds, hds⟩ := agreeShapes_traced hd l.shape r.shape pairs hroom
    rcases run_and (agreeShapes descend l.shape r.shape) (agreeShapes descend l.value r.value) pairs
      with ⟨hrun, hstop⟩ | ⟨pairs', hshape, hrun⟩
    · exact ⟨ds, hrun ▸ .symbolsStop hkind htype hds hstop⟩
    · rw [hshape] at hds
      obtain ⟨ds', hds'⟩ := agreeShapes_traced hd l.value r.value pairs'
        (Nat.lt_of_le_of_lt hds.unvisited_le hroom)
      exact ⟨ds ++ ds', hrun ▸ .symbols hkind htype hds hds'⟩

end

/-- Induction on the nesting still allowed: a descent to a symbol of the right table leaves one symbol
fewer without a partner. -/
theorem agreeSymbols_traced (left right : SymbolTable) (depth : Nat) : ∀ l r : Symbol,
    Traced left right depth (.symbols l r) (agreeSymbols left right depth l r) := by
  induction depth with
  | zero => exact fun l r pairs hroom => absurd hroom (Nat.not_lt_zero _)
  | succ depth ih =>
    intro l r
    rw [agreeSymbols_succ]
    refine compareSymbols_traced (fun {pairs a b g h} hnew hroom => ?_) l r
    cases hl : left.get g with
    | error e => exact ⟨[], .unbound hnew (by rw [hl]; rfl)⟩
    | ok l' =>
      cases hr : right.get h with
      | error e => exact ⟨[], .unbound hnew (by rw [hl, hr]; rfl)⟩
      | ok r' =>
        rw [SymbolTable.get_ok] at hl hr
        have hless : right.unvisited (((h, g) :: pairs).map Prod.fst) <
            right.unvisited (pairs.map Prod.fst) :=
          unvisited_cons_lt hr (not_mem_keys hnew.unpaired)
        obtain ⟨ds, hds⟩ := ih l' r' ((h, g) :: pairs) (by omega)
        exact ⟨h :: ds, .descend hnew hl hr hds⟩

/-! ## All shared names -/

/-- How the symbols of several names are compared, one after another, and the names of the right side at
which the comparisons descend. -/
inductive RunsAll (left right : SymbolTable) :
    List String → Pairs → List String → Except Error (Unit × Pairs) → Prop
  | nil {pairs : Pairs} : RunsAll left right [] pairs [] (.ok ((), pairs))
  | unbound {name : String} {rest : List String} {pairs : Pairs} {e : Error} :
      (do let _ ← left.get name; right.get name) = .error e →
      RunsAll left right (name :: rest) pairs [] (.error e)
  | error {name : String} {rest : List String} {l r : Symbol} {pairs : Pairs} {ds : List String}
      {e : Error} : left.get? name = some l → right.get? name = some r →
      Runs left right (.symbols l r) pairs ds (.error e) →
      RunsAll left right (name :: rest) pairs ds (.error e)
  | conflict {name : String} {rest : List String} {l r : Symbol} {pairs pairs' : Pairs}
      {ds : List String} : left.get? name = some l → right.get? name = some r →
      Runs left right (.symbols l r) pairs ds (.ok (false, pairs')) →
      RunsAll left right (name :: rest) pairs ds (.error (.mergeConflict name l.text r.text))
  | cons {name : String} {rest : List String} {l r : Symbol} {pairs pairs' : Pairs}
      {ds ds' : List String} {ending : Except Error (Unit × Pairs)} :
      left.get? name = some l → right.get? name = some r →
      Runs left right (.symbols l r) pairs ds (.ok (true, pairs')) →
      RunsAll left right rest pairs' ds' ending →
      RunsAll left right (name :: rest) pairs (ds ++ ds') ending

theorem RunsAll.fresh {names : List String} {ending : Except Error (Unit × Pairs)}
    (h : RunsAll left right names pairs ds ending) : Fresh right pairs ds := by
  induction h with
  | nil | unbound => exact .nil
  | error _ _ h | conflict _ _ h => exact h.fresh
  | cons _ _ h _ ih => exact h.fresh.append (h.keys rfl) ih

/-- The comparison of several names goes as said. -/
theorem agreeNames_traced (left right : SymbolTable) : ∀ (names : List String) (pairs : Pairs),
    ∃ ds, RunsAll left right names pairs ds ((agreeNames left right names).run pairs)
  | [], pairs => ⟨[], .nil⟩
  | name :: rest, pairs => by
    rw [agreeNames]
    cases hl : left.get name with
    | error e => exact ⟨[], .unbound (by rw [hl]; rfl)⟩
    | ok l =>
      cases hr : right.get name with
      | error e => exact ⟨[], .unbound (by rw [hl, hr]; rfl)⟩
      | ok r =>
        rw [SymbolTable.get_ok] at hl hr
        obtain ⟨ds, hds⟩ := agreeSymbols_traced left right (right.size + 1) l r pairs
          (Nat.lt_succ_of_le (right.unvisited_le _))
        show ∃ ds, RunsAll left right (name :: rest) pairs ds
          ((agreeSymbols left right (right.size + 1) l r).run pairs >>= fun p =>
            (if p.1 then agreeNames left right rest
              else throw (.mergeConflict name l.text r.text) : Pairing Unit).run p.2)
        generalize (agreeSymbols left right (right.size + 1) l r).run pairs = ending at hds ⊢
        rcases ending with e | ⟨verdict, pairs'⟩
        · exact ⟨ds, .error hl hr hds⟩
        · cases verdict with
          | false => exact ⟨ds, .conflict hl hr hds⟩
          | true =>
            obtain ⟨ds', hds'⟩ := agreeNames_traced left right rest pairs'
            exact ⟨ds ++ ds', .cons hl hr hds hds'⟩

end Merge

open Merge in
/-- **Both searches of a merge end**, whatever circles the symbols run in. The needed names are the
least set that holds the names of the tree and, with a bound name, those its symbol depends on; the
search answers them, each once, if all of them are bound, and otherwise reports one that is not. The
comparison of symbols, wherever it is asked, goes as it does without a bound on its nesting, and
descends at most once at each generated name of the right table. -/
theorem Context.search_ends (left right : Context) :
    IsLeast {P : Set String | (∀ name ∈ left.tree.names, name ∈ P) ∧ left.table.ClosedUnder (· ∈ P)}
        {name | left.Needs name} ∧
      (∀ names, left.reachable = .ok names →
        names.Nodup ∧ ∀ name, name ∈ names ↔ left.Needs name) ∧
      (∀ e, left.reachable = .error e →
        ∃ name, e = .unknownSymbol name ∧ left.Needs name ∧ left.table.get? name = none) ∧
      ((∃ name, left.reachable = .error (.unknownSymbol name)) ↔
        ∃ name, left.Needs name ∧ left.table.get? name = none) ∧
      ∀ names pairs,
        (∃ descents, RunsAll left.table right.table names pairs descents
          ((agreeNames left.table right.table names).run pairs)) ∧
        ∀ descents ending, RunsAll left.table right.table names pairs descents ending →
          descents.Nodup ∧
            ∀ h ∈ descents, isGenerated h = true ∧ h ∈ right.table.names ∧ h ∉ pairs.map Prod.fst := by
  refine ⟨⟨⟨fun _ => .tree, left.needs_closed⟩, fun P hP name hn => hn.least hP.1 hP.2⟩,
    fun names h => ⟨reachable_nodup h, mem_reachable_iff h⟩, fun e h => reachable_error h,
    reachable_unknown_iff, fun names pairs => ⟨agreeNames_traced _ _ names pairs, ?_⟩⟩
  intro descents ending hruns
  have hfresh := hruns.fresh
  exact ⟨hfresh.nodup, fun h hmem =>
    ⟨hfresh.generated h hmem, hfresh.bound h hmem, hfresh.unpaired h hmem⟩⟩

open Merge in
/-- A length and an index that depend on each other are both needed, and their comparison ends. -/
theorem Context.search_ends_cyclic : cyclicLeft.reachable = .ok ["A", "_i9", "_a5"] ∧
    (∀ name, name ∈ ["A", "_i9", "_a5"] ↔ cyclicLeft.Needs name) ∧
    ∃ descents, RunsAll cyclicLeft.table cyclicRight.table ["A"] [] descents
      ((agreeNames cyclicLeft.table cyclicRight.table ["A"]).run []) ∧ descents.Nodup := by
  obtain ⟨-, hok, -, -, hruns⟩ := Context.search_ends cyclicLeft cyclicRight
  obtain ⟨⟨descents, hgoes⟩, hnodup⟩ := hruns ["A"] []
  exact ⟨cyclicLeft_reachable, (hok _ cyclicLeft_reachable).2, descents, hgoes,
    (hnodup _ _ hgoes).1⟩

end PsiCalculus
