import PsiCalculus.Proofs.Merge.Joined
import Mathlib.Data.List.Zip
import Mathlib.Logic.Relator

/-!
# The order of a merge

What a merge asks of two contexts is the same from both sides but for one thing. The symbols of the
names they share, and of the names that correspond, have to match (`Matching`, a symmetric relation by
`Matching.symm`); and a generated name of the right side may correspond to one name of the left side
only. A name of the left side may correspond to several of the right side.

`Context.merge_orders` says that a merge succeeds exactly if this holds. So the order of the contexts
does not matter if names correspond one to one, and it does if one length of an array is split in two
on the other side (`Merge.merge_one_way`).

That the comparison finds no fault with symbols that match is the statement `Accepts`: every descent
pairs a name of the right table that had no partner, so that the nesting it is given is enough.
-/

namespace PsiCalculus

/-! ## Both sides exchanged -/

theorem mem_zip_swap {α β : Type} {as : List α} {bs : List β} {a : α} {b : β}
    (h : (a, b) ∈ as.zip bs) : (b, a) ∈ bs.zip as := by
  rw [← List.zip_swap]
  exact List.mem_map.2 ⟨_, h, rfl⟩

theorem Symbol.Faces.symm {l r : Symbol} {a b : Element} (h : l.Faces r a b) : r.Faces l b a :=
  h.imp mem_zip_swap mem_zip_swap

namespace Merge

variable {left right : Context} {pairs pairs' : Pairs}

theorem Corresponds.symm {g h : String} (hc : Corresponds left right g h) :
    Corresponds right left h g := by
  induction hc with
  | shared hu hnl hnr hl hr hf hg hh => exact .shared hu hnr hnl hr hl hf.symm hh hg
  | nested _ hl hr hf hg hh ih => exact ih.nested hr hl hf.symm hh hg

theorem corresponds_comm {g h : String} :
    Corresponds left right g h ↔ Corresponds right left h g :=
  ⟨.symm, .symm⟩

/-- The pairs seen from the other side. -/
def Pairs.flip (pairs : Pairs) : Pairs := pairs.map Prod.swap

@[simp] theorem Pairs.mem_flip {g h : String} : (g, h) ∈ pairs.flip ↔ (h, g) ∈ pairs := by
  simp [Pairs.flip]

theorem Agree.flip {a b : Element} (h : Agree pairs a b) : Agree pairs.flip b a := by
  cases h with
  | int n => exact .int n
  | user hu => exact .user hu
  | paired hg hh hm => exact .paired hh hg (Pairs.mem_flip.2 hm)

theorem AgreeShapes.flip {l r : Option Shape} (h : AgreeShapes pairs l r) :
    AgreeShapes pairs.flip r l := by
  cases h with
  | none => exact .none
  | some h => exact .some (h.flip.imp fun _ _ ha => ha.flip)

theorem AgreeSymbols.flip {l r : Symbol} (h : AgreeSymbols pairs l r) :
    AgreeSymbols pairs.flip r l :=
  ⟨h.kind.symm, h.elementType.symm, h.shape.flip, h.value.flip⟩

theorem Settled.flip {g h : String} (hs : Settled left right pairs g h) :
    Settled right left pairs.flip h g := by
  obtain ⟨l, r, hl, hr, hag⟩ := hs
  exact ⟨r, l, hr, hl, hag.flip⟩

/-- The symbols of the names that both sides share, and those of names that correspond, match element
by element if corresponding names count as equal. -/
def Matching (left right : Context) : Prop :=
  ∃ pairs, (∀ g h, (h, g) ∈ pairs ↔ Corresponds left right g h) ∧
    (∀ name, Shared left right name → Settled left right pairs name name) ∧
    ∀ g h, Corresponds left right g h → Settled left right pairs g h

theorem Matching.symm (hm : Matching left right) : Matching right left := by
  obtain ⟨pairs, hpairs, hshared, hpaired⟩ := hm
  refine ⟨pairs.flip, fun g h => ?_, fun name hs => ?_, fun g h hc => ?_⟩
  · rw [Pairs.mem_flip, hpairs, corresponds_comm]
  · exact (hshared name ⟨hs.user, hs.right, hs.left⟩).flip
  · exact (hpaired h g hc.symm).flip

/-! ## Symbols that match are found to agree -/

/-- Pairs of names that correspond, each name of the right side once. -/
structure Partners (left right : Context) (pairs : Pairs) : Prop where
  nodup : (pairs.map Prod.fst).Nodup
  corresponds : ∀ p ∈ pairs, Corresponds left right p.2 p.1

theorem Partners.push {g h : String} (hp : Partners left right pairs)
    (hnew : pairs.lookup h = none) (hc : Corresponds left right g h) :
    Partners left right ((h, g) :: pairs) :=
  ⟨(Widens.push hnew hc).nodup hp.nodup, List.forall_mem_cons.2 ⟨hc, hp.corresponds⟩⟩

/-- There are no more pairs than the right table has names. -/
theorem Partners.length_le (hR : right.Resolved) (hp : Partners left right pairs) :
    pairs.length ≤ right.table.size := by
  have hsub : pairs.map Prod.fst ⊆ right.table.names := by
    intro h hh
    obtain ⟨p, hm, rfl⟩ := List.mem_map.1 hh
    obtain ⟨s, hs⟩ := hR.defined p.1 (hp.corresponds p hm).needs.2
    exact SymbolTable.mem_names_of_get? hs
  have hle := (List.subperm_of_subset hp.nodup hsub).length_le
  simpa [SymbolTable.names, SymbolTable.size] using hle

/-- With `depth` nested descents left, which together with the pairs exceed the names of the right
table, the comparison is positive. -/
def Accepts (left right : Context) (depth : Nat) (x : Pairing Bool) : Prop :=
  ∀ pairs, Partners left right pairs → right.table.size < pairs.length + depth →
    ∃ pairs', x.run pairs = .ok (true, pairs') ∧ Partners left right pairs' ∧
      pairs.length ≤ pairs'.length

section
variable {depth : Nat} {x y : Pairing Bool}

theorem Accepts.pure (depth : Nat) : Accepts left right depth (pure true) :=
  fun pairs hp _ => ⟨pairs, rfl, hp, Nat.le_refl _⟩

theorem Accepts.and (hx : Accepts left right depth x) (hy : Accepts left right depth y) :
    Accepts left right depth (do if ← x then y else Pure.pure false) := by
  intro pairs hp hdepth
  obtain ⟨pairs₁, hrun, hp₁, hle₁⟩ := hx pairs hp hdepth
  obtain ⟨pairs₂, hrun₂, hp₂, hle₂⟩ := hy pairs₁ hp₁ (by omega)
  exact ⟨pairs₂, bind_ok.2 ⟨_, _, hrun, hrun₂⟩, hp₂, hle₁.trans hle₂⟩

/-- Without descents left every name of the right table is paired already. -/
theorem Accepts.zero (hR : right.Resolved) (x : Pairing Bool) : Accepts left right 0 x := by
  intro pairs hp hdepth
  have := hp.length_le hR
  omega

end

section
variable {depth : Nat} {descend : String → String → Pairing Bool} {all : Pairs}
  (hall : ∀ g h, (h, g) ∈ all → Corresponds left right g h)
  (hunique : Relator.LeftUnique (Corresponds left right))
include hall hunique

theorem agreeElement_accepts {a b : Element} (hab : Agree all a b)
    (hd : ∀ g h, (h, g) ∈ all → Accepts left right (depth - 1) (descend g h)) :
    Accepts left right depth (agreeElement descend a b) := by
  cases hab with
  | int n =>
    have heq : agreeElement descend (.int n) (.int n) = Pure.pure (Element.int n == .int n) := rfl
    rw [heq, beq_self_eq_true]
    exact .pure depth
  | @user name hu =>
    have heq : agreeElement descend (.named name) (.named name) = Pure.pure (name == name) := by
      simp only [agreeElement, Element.symbolName?_named, hu]
    rw [heq, beq_self_eq_true]
    exact .pure depth
  | @paired g h hg hh hm =>
    have hc := hall g h hm
    intro pairs hp hdepth
    cases hlook : pairs.lookup h with
    | some partner =>
      have hpartner : partner = g :=
        hunique (hp.corresponds _ (mem_of_lookup hlook)) hc
      refine ⟨pairs, ?_, hp, Nat.le_refl _⟩
      simp only [agreeElement, Element.symbolName?_named, hg, hh]
      refine bind_ok.2 ⟨pairs, pairs, get_ok.2 rfl, ?_⟩
      simp only [hlook, hpartner, beq_self_eq_true]
      rfl
    | none =>
      obtain ⟨pairs', hdescend, hp', hle⟩ := hd g h hm ((h, g) :: pairs) (hp.push hlook hc)
        (by rw [List.length_cons]; omega)
      rw [List.length_cons] at hle
      refine ⟨pairs', ?_, hp', by omega⟩
      simp only [agreeElement, Element.symbolName?_named, hg, hh]
      refine bind_ok.2 ⟨pairs, pairs, get_ok.2 rfl, ?_⟩
      simp only [hlook]
      exact bind_ok.2 ⟨_, _, modify_ok.2 rfl, hdescend⟩

theorem agreeElements_accepts {ls rs : Shape} (h : List.Forall₂ (Agree all) ls rs)
    (hd : ∀ g h, (h, g) ∈ all → Accepts left right (depth - 1) (descend g h)) :
    Accepts left right depth (agreeElements descend ls rs) := by
  induction h with
  | nil => exact .pure depth
  | cons hab _ ih => exact (agreeElement_accepts hall hunique hab hd).and ih

theorem agreeShapes_accepts {l r : Option Shape} (h : AgreeShapes all l r)
    (hd : ∀ g h, (h, g) ∈ all → Accepts left right (depth - 1) (descend g h)) :
    Accepts left right depth (agreeShapes descend l r) := by
  cases h with
  | none => exact .pure depth
  | some h =>
    rw [agreeShapes, if_pos h.length_eq]
    exact agreeElements_accepts hall hunique h hd

theorem compareSymbols_accepts {l r : Symbol} (h : AgreeSymbols all l r)
    (hd : ∀ g h, (h, g) ∈ all → Accepts left right (depth - 1) (descend g h)) :
    Accepts left right depth (compareSymbols descend l r) := by
  rw [compareSymbols, if_neg (by simp [h.kind, h.elementType])]
  exact (agreeShapes_accepts hall hunique h.shape hd).and
    (agreeShapes_accepts hall hunique h.value hd)

/-- Induction on the nesting still allowed. The symbols of a new pair match since the names
correspond. -/
theorem agreeSymbols_accepts (hR : right.Resolved)
    (hpaired : ∀ g h, (h, g) ∈ all → Settled left right all g h) (depth : Nat) :
    ∀ {l r : Symbol}, AgreeSymbols all l r →
      Accepts left right depth (agreeSymbols left.table right.table depth l r) := by
  induction depth with
  | zero => exact fun _ => .zero hR _
  | succ depth ih =>
    intro l r hag
    rw [agreeSymbols_succ]
    refine compareSymbols_accepts hall hunique hag fun g h hm => ?_
    obtain ⟨l', r', hl', hr', hag'⟩ := hpaired g h hm
    intro pairs hp hdepth
    obtain ⟨pairs', hrun, hrest⟩ := ih hag' pairs hp hdepth
    exact ⟨pairs', bind_ok.2 ⟨_, _, lift_ok.2 ⟨_, SymbolTable.get_ok.2 hl', rfl⟩,
      bind_ok.2 ⟨_, _, lift_ok.2 ⟨_, SymbolTable.get_ok.2 hr', rfl⟩, hrun⟩⟩, hrest⟩

/-- Comparing shared names whose symbols match meets no conflict. -/
theorem agreeNames_accepts (hR : right.Resolved)
    (hpaired : ∀ g h, (h, g) ∈ all → Settled left right all g h) : ∀ {names : List String},
    (∀ name ∈ names, Settled left right all name name) → ∀ pairs, Partners left right pairs →
    ∃ pairs', (agreeNames left.table right.table names).run pairs = .ok ((), pairs')
  | [], _, pairs, _ => ⟨pairs, rfl⟩
  | name :: rest, hs, pairs, hp => by
    obtain ⟨l, r, hl, hr, hag⟩ := hs name (.head _)
    obtain ⟨pairs₁, hrun, hp₁, -⟩ := agreeSymbols_accepts hall hunique hR hpaired
      (right.table.size + 1) hag pairs hp (by omega)
    obtain ⟨pairs₂, hrun₂⟩ := agreeNames_accepts hR hpaired (fun n hn => hs n (.tail _ hn)) pairs₁ hp₁
    refine ⟨pairs₂, ?_⟩
    rw [agreeNames, SymbolTable.get_ok.2 hl, SymbolTable.get_ok.2 hr]
    show (agreeSymbols _ _ _ l r).run pairs >>= _ = _
    rw [hrun]
    exact hrun₂

end

/-! ## When a merge succeeds -/

section
variable (hL : left.Resolved) (hR : right.Resolved)
include hL hR

/-- Once the shared names are found to agree nothing stands against the merge. -/
theorem merge_of_agreement {leftNames rightNames : List String}
    (hroom : left.table.size + right.table.size ≤ Text.maxWord)
    (hl : left.reachable = .ok leftNames) (hr : right.reachable = .ok rightNames)
    (hrun : (agreeNames left.table right.table (shared leftNames rightNames)).run [] =
      .ok ((), pairs)) (hag : Agreement left right pairs) : ∃ r, left.merge right = .ok r := by
  have hln := Context.mem_reachable_iff hl
  have hrn := Context.mem_reachable_iff hr
  obtain ⟨newsL, mid, hnl⟩ : ∃ news mid, renumber [] 0 (needed left.table leftNames) = (news, mid) :=
    ⟨_, _, rfl⟩
  obtain ⟨newsR, next, hnr⟩ : ∃ news next, renumber (partnersOf newsL pairs) mid
    (needed right.table rightNames) = (news, next) := ⟨_, _, rfl⟩
  have hnumL := hnl ▸ renumber_renumbers [] (needed left.table leftNames) 0 (nodup_needed hL _)
  have hnumR := hnr ▸ renumber_renumbers (partnersOf newsL pairs) (needed right.table rightNames) mid
    (nodup_needed hR _)
  have hsideL := hnumL.side hL hln
  have hsideR := hnumR.side hR hrn
  have hs : Sides left right pairs (newName newsL) (newName newsR) mid next := by
    refine hsideL.sides hag (fun g hn hg => ?_) hsideR
    obtain ⟨s, hget⟩ := hL.defined g hn
    obtain ⟨id, -, -, hlook⟩ := hnumL.number ((mem_needed hL hln).2 ⟨hn, hget⟩) hg rfl
    exact ⟨_, hlook⟩
  have hsizeL := hsideL.next_le
  have hsizeR := hsideR.next_le
  rw [merge_eq hl hr hrun hnl hnr]
  have hempty : Compatible newsL .empty (needed left.table leftNames) := nofun
  rcases insertAll_run hempty (hs.consistent_left hL hln) with
    ⟨e, he, -, id, hid, hle⟩ | ⟨t, hins, ht⟩
  · have := (hsideL.below hL).exhausted hsideL.user ((mem_needed hL hln).1 he).1 hid hle
    omega
  rcases insertAll_run (hs.compatible_right hL hR hln hrn hag ht)
      (hs.consistent_right hL hR hrn hag) with ⟨e, he, -, id, hid, hle⟩ | ⟨t', hins', -⟩
  · have := (hs.below hL hR hag).exhausted hs.user ((mem_needed hR hrn).1 he).1 hid hle
    omega
  · exact ⟨_, except_bind_ok.2 ⟨t, hins, except_bind_ok.2 ⟨t', hins', rfl⟩⟩⟩

/-- **A merge succeeds exactly if** the symbols match and no name of the right side corresponds to two
of the left side. -/
theorem merge_ok_iff (hroom : left.table.size + right.table.size ≤ Text.maxWord) :
    (∃ r, left.merge right = .ok r) ↔
      Matching left right ∧ Relator.LeftUnique (Corresponds left right) := by
  obtain ⟨leftNames, hl, hln⟩ := left.reachable_ok hL.defined
  obtain ⟨rightNames, hr, hrn⟩ := right.reachable_ok hR.defined
  have hshared : ∀ name, name ∈ shared leftNames rightNames ↔ Shared left right name :=
    fun _ => mem_shared hln hrn
  have hverdict := agreeNames_run hL hR (fun name hn => (hshared name).1 hn) []
  constructor
  · rintro ⟨r, hmerge⟩
    rcases hverdict with ⟨e, hrun, -⟩ | ⟨pairs, -, hw, hnew, hall⟩
    · simp [Context.merge, hl, hr, hrun, bind, Except.bind] at hmerge
    · have hag : Agreement left right pairs :=
        .of_run hw hnew fun name hs => hall name ((hshared name).2 hs)
      refine ⟨⟨pairs, hag.mem_iff, hag.shared, fun g h hc => hag.paired g h ((hag.mem_iff g h).2 hc)⟩,
        fun g g' h hc hc' => ?_⟩
      have heq := List.inj_on_of_nodup_map hag.nodup ((hag.mem_iff g h).2 hc)
        ((hag.mem_iff g' h).2 hc') rfl
      exact congrArg Prod.snd heq
  · rintro ⟨⟨all, hall, hshare, hpaired⟩, hunique⟩
    rcases hverdict with ⟨e, hrun, -⟩ | ⟨pairs, hrun, hw, hnew, hsettled⟩
    · -- the comparison has no reason to stop
      obtain ⟨pairs, hok⟩ := agreeNames_accepts (fun g h hm => (hall g h).1 hm) hunique hR
        (fun g h hm => hpaired g h ((hall g h).1 hm))
        (fun name hn => hshare name ((hshared name).1 hn)) [] ⟨List.nodup_nil, by simp⟩
      rw [hrun] at hok
      cases hok
    · exact merge_of_agreement hL hR hroom hl hr hrun
        (.of_run hw hnew fun name hs => hsettled name ((hshared name).2 hs))

end

end Merge

open Merge in
/-- **The order of a merge.** Both orders ask that the symbols of shared and of corresponding names
match. Beyond that, names of the second context may not correspond to two names of the first: so the
two orders agree if names correspond one to one. -/
theorem Context.merge_orders {a b : Context} (ha : a.Resolved) (hb : b.Resolved)
    (hroom : a.table.size + b.table.size ≤ Text.maxWord) :
    ((∃ r, a.merge b = .ok r) ↔ Matching a b ∧ Relator.LeftUnique (Corresponds a b)) ∧
    ((∃ r, b.merge a = .ok r) ↔ Matching a b ∧ Relator.RightUnique (Corresponds a b)) ∧
    (Relator.BiUnique (Corresponds a b) → ((∃ r, a.merge b = .ok r) ↔ ∃ r, b.merge a = .ok r)) := by
  have hfirst := merge_ok_iff ha hb hroom
  have hsecond : (∃ r, b.merge a = .ok r) ↔
      Matching a b ∧ Relator.RightUnique (Corresponds a b) := by
    rw [merge_ok_iff hb ha (by omega)]
    refine and_congr ⟨.symm, .symm⟩ ⟨fun hu g h h' hc hc' => ?_, fun hu h h' g hc hc' => ?_⟩
    · exact hu hc.symm hc'.symm
    · exact hu hc.symm hc'.symm
  refine ⟨hfirst, hsecond, fun hone => ?_⟩
  rw [hfirst, hsecond]
  exact and_congr_right fun _ => ⟨fun _ => hone.2, fun _ => hone.1⟩

namespace Merge

/-- A square array: one length, which is three, stands for both axes. -/
def oneLength : Context where
  tree := .array "A" none
  table :=
    { entries := [("_a0", .array (some []) (some [.int 3])),
        ("A", .array (some [.named "_a0", .named "_a0"]) none)]
      counter := 1 }

/-- The same array with a length of its own for each axis, both of them three. -/
def twoLengths : Context where
  tree := .array "A" none
  table :=
    { entries := [("_a0", .array (some []) (some [.int 3])),
        ("_a1", .array (some []) (some [.int 3])),
        ("A", .array (some [.named "_a0", .named "_a1"]) none)]
      counter := 2 }

theorem oneLength_resolved : oneLength.Resolved :=
  .of_closed ["A", "_a0"] (by decide) (by decide) (by decide)

theorem twoLengths_resolved : twoLengths.Resolved :=
  .of_closed ["A", "_a0", "_a1"] (by decide) (by decide) (by decide)

theorem oneLength_reachable : oneLength.reachable = .ok ["_a0", "A"] := by
  simp [Context.reachable, SymbolTable.closure, oneLength, Expr.names, Expr.namesAll, Expr.array,
    Payload.names, Shape.names, SymbolTable.get?, Symbol.array, Symbol.dependencies,
    List.lookup_cons, List.filterMap_cons, Element.symbolName?, Element.named, Expr.name?]

theorem twoLengths_reachable : twoLengths.reachable = .ok ["_a0", "_a1", "A"] := by
  simp [Context.reachable, SymbolTable.closure, twoLengths, Expr.names, Expr.namesAll, Expr.array,
    Payload.names, Shape.names, SymbolTable.get?, Symbol.array, Symbol.dependencies,
    List.lookup_cons, List.filterMap_cons, Element.symbolName?, Element.named, Expr.name?]

theorem oneLength_merge : ∃ r, oneLength.merge twoLengths = .ok r := by
  have hok : (oneLength.merge twoLengths).isOk = true := by
    rw [Context.merge, oneLength_reachable, twoLengths_reachable]
    decide +kernel
  cases hm : oneLength.merge twoLengths with
  | ok r => exact ⟨r, rfl⟩
  | error e =>
    rw [hm] at hok
    cases hok

theorem twoLengths_merge : ¬ ∃ r, twoLengths.merge oneLength = .ok r := by
  have hfails : (twoLengths.merge oneLength).isOk = false := by
    rw [Context.merge, oneLength_reachable, twoLengths_reachable]
    decide +kernel
  rintro ⟨r, hr⟩
  rw [hr] at hfails
  cases hfails

theorem merge_orders_lengths : oneLength.Resolved ∧ twoLengths.Resolved ∧
    oneLength.table.size + twoLengths.table.size ≤ Text.maxWord ∧
    Matching oneLength twoLengths ∧ Relator.LeftUnique (Corresponds oneLength twoLengths) ∧
    ¬ Relator.RightUnique (Corresponds oneLength twoLengths) := by
  have hroom : oneLength.table.size + twoLengths.table.size ≤ Text.maxWord := by decide
  obtain ⟨hfirst, hsecond, -⟩ :=
    Context.merge_orders oneLength_resolved twoLengths_resolved hroom
  obtain ⟨hmatching, hleft⟩ := hfirst.1 oneLength_merge
  exact ⟨oneLength_resolved, twoLengths_resolved, hroom, hmatching, hleft,
    fun hright => twoLengths_merge (hsecond.2 ⟨hmatching, hright⟩)⟩

/-- Two lengths of the second context may stand for one of the first, but not the other way round. -/
theorem merge_one_way : oneLength.Resolved ∧ twoLengths.Resolved ∧
    (∃ r, oneLength.merge twoLengths = .ok r) ∧ ¬ ∃ r, twoLengths.merge oneLength = .ok r :=
  ⟨oneLength_resolved, twoLengths_resolved, oneLength_merge, twoLengths_merge⟩

end Merge

end PsiCalculus
