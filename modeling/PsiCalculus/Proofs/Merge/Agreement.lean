import PsiCalculus.Merge.Equivalence
import PsiCalculus.Proofs.Merge.Reachable

/-!
# Agreement of shared symbols

Two contexts can only be merged if the symbols of the user names they share agree. What agreement
means is said without the comparison that decides it:

* `Corresponds left right g h`: the generated names `g` and `h` stand at the same place of the two
  symbols of a shared user name, or of the symbols of names that correspond.
* `AgreeSymbols pairs l r`: the two symbols match element by element if paired names count as equal.

A comparison (`Compares`) always ends with a verdict, only pairs names that correspond, and if the
verdict is positive the symbols of the names it paired agree. It follows that comparing all shared
names either meets a conflict or leaves exactly the corresponding names paired, each name of the
right side once (`agreeNames_run`, `Agreement.mem_iff`).
-/

namespace PsiCalculus

/-- An integer or the name of a scalar. -/
inductive Element.Plain : Element → Prop
  | int (n : Int) : Plain (.int n)
  | named (name : String) : Plain (.named name)

instance : DecidablePred Element.Plain
  | .int n => isTrue (.int n)
  | .symbolic node =>
    decidable_of_iff (node.name?.map Element.named = some (.symbolic node)) <| by
      constructor
      · intro h
        obtain ⟨name, -, heq⟩ := Option.map_eq_some_iff.1 h
        exact heq ▸ .named name
      · intro h
        generalize he : Element.symbolic node = e at h
        cases h with
        | int n => cases he
        | named name =>
          cases he
          rfl

@[simp] theorem Element.symbolName?_named (name : String) :
    (Element.named name).symbolName? = some name := rfl

theorem Element.named_inj {a b : String} : Element.named a = .named b ↔ a = b := by
  simp [Element.named, Expr.array]

namespace Symbol

/-- All elements of the symbol are plain. -/
def Plain (s : Symbol) : Prop :=
  (∀ e ∈ s.shape.getD [], e.Plain) ∧ ∀ e ∈ s.value.getD [], e.Plain

/-- The elements stand at the same place of the shapes or of the values of two symbols. -/
def Faces (l r : Symbol) (a b : Element) : Prop :=
  (a, b) ∈ (l.shape.getD []).zip (r.shape.getD []) ∨
    (a, b) ∈ (l.value.getD []).zip (r.value.getD [])

instance (s : Symbol) : Decidable s.Plain :=
  inferInstanceAs (Decidable (_ ∧ _))

theorem mem_dependencies {s : Symbol} {name : String}
    (h : .named name ∈ s.shape.getD [] ∨ .named name ∈ s.value.getD []) :
    name ∈ s.dependencies := by
  rw [dependencies, List.mem_append]
  exact h.imp (fun h => List.mem_filterMap.2 ⟨_, h, rfl⟩) fun h => List.mem_filterMap.2 ⟨_, h, rfl⟩

theorem Faces.left_mem {l r : Symbol} {g : String} {b : Element} (h : l.Faces r (.named g) b) :
    g ∈ l.dependencies :=
  mem_dependencies (h.imp (fun h => (List.of_mem_zip h).1) fun h => (List.of_mem_zip h).1)

theorem Faces.right_mem {l r : Symbol} {a : Element} {h : String} (hf : l.Faces r a (.named h)) :
    h ∈ r.dependencies :=
  mem_dependencies (hf.imp (fun h => (List.of_mem_zip h).2) fun h => (List.of_mem_zip h).2)

end Symbol

/-- A context whose table binds no name twice and has a symbol, made of plain elements, for every
name the context needs. -/
structure Context.Resolved (c : Context) : Prop where
  nodup : c.table.names.Nodup
  defined : ∀ name, c.Needs name → ∃ s, c.table.get? name = some s
  plain : ∀ name s, c.Needs name → c.table.get? name = some s → s.Plain

/-- A list with the names of the tree, closed under dependencies, shows that a context is resolved. -/
theorem Context.Resolved.of_closed {c : Context} (names : List String)
    (hnodup : c.table.names.Nodup) (htree : ∀ name ∈ c.tree.names, name ∈ names)
    (hnames : ∀ name ∈ names, (c.table.get? name).any
      (fun s => s.Plain ∧ ∀ d ∈ s.dependencies, d ∈ names) = true) : c.Resolved := by
  have hget : ∀ name ∈ names, ∃ s, c.table.get? name = some s ∧ s.Plain ∧
      ∀ d ∈ s.dependencies, d ∈ names := by
    intro name hn
    obtain ⟨s, hs, h⟩ := Option.any_eq_true _ _ |>.1 (hnames name hn)
    exact ⟨s, hs, of_decide_eq_true h⟩
  have hneeds : ∀ name, c.Needs name → name ∈ names := by
    intro name h
    refine h.least htree fun n s hn hs d hd => ?_
    obtain ⟨s', hs', -, hdeps⟩ := hget n hn
    obtain rfl := Option.some.inj (hs.symm.trans hs')
    exact hdeps d hd
  refine ⟨hnodup, fun name hn => ?_, fun name s hn hs => ?_⟩
  · obtain ⟨s, hs, -⟩ := hget name (hneeds name hn)
    exact ⟨s, hs⟩
  · obtain ⟨s', hs', hplain, -⟩ := hget name (hneeds name hn)
    rwa [Option.some.inj (hs.symm.trans hs')]

namespace Merge

/-! ## Corresponding names -/

/-- Generated names at the same place of the symbols of a user name that both sides need, or of the
symbols of names that correspond themselves. -/
inductive Corresponds (left right : Context) : String → String → Prop
  | shared {name g h : String} {l r : Symbol} : isGenerated name = false →
      left.Needs name → right.Needs name →
      left.table.get? name = some l → right.table.get? name = some r →
      l.Faces r (.named g) (.named h) → isGenerated g = true → isGenerated h = true →
      Corresponds left right g h
  | nested {g h g' h' : String} {l r : Symbol} : Corresponds left right g h →
      left.table.get? g = some l → right.table.get? h = some r →
      l.Faces r (.named g') (.named h') → isGenerated g' = true → isGenerated h' = true →
      Corresponds left right g' h'

theorem mem_of_lookup {names : List (String × String)} {a b : String}
    (h : names.lookup a = some b) : (a, b) ∈ names := by
  obtain ⟨l₁, l₂, rfl, -⟩ := List.lookup_eq_some_iff.1 h
  simp

variable {left right : Context} {pairs pairs' pairs'' : Pairs}

theorem Corresponds.needs {g h : String} (hc : Corresponds left right g h) :
    left.Needs g ∧ right.Needs h := by
  induction hc with
  | shared _ hl hr hgl hgr hf =>
    exact ⟨.symbol hl hgl hf.left_mem, .symbol hr hgr hf.right_mem⟩
  | nested _ hgl hgr hf _ _ ih =>
    exact ⟨.symbol ih.1 hgl hf.left_mem, .symbol ih.2 hgr hf.right_mem⟩

theorem Corresponds.generated {g h : String} (hc : Corresponds left right g h) :
    isGenerated g = true ∧ isGenerated h = true := by
  cases hc with
  | shared _ _ _ _ _ _ hg hh => exact ⟨hg, hh⟩
  | nested _ _ _ _ hg hh => exact ⟨hg, hh⟩

/-! ## Agreement under pairs -/

/-- Elements that are equal, or generated names of which the second is paired with the first. -/
inductive Agree (pairs : Pairs) : Element → Element → Prop
  | int (n : Int) : Agree pairs (.int n) (.int n)
  | user {name : String} : isGenerated name = false → Agree pairs (.named name) (.named name)
  | paired {g h : String} : isGenerated g = true → isGenerated h = true → (h, g) ∈ pairs →
      Agree pairs (.named g) (.named h)

/-- Shapes that are both unknown, or agree element by element. -/
def AgreeShapes (pairs : Pairs) : Option Shape → Option Shape → Prop :=
  Option.Rel (List.Forall₂ (Agree pairs))

/-- Symbols of one kind whose shapes and values agree. -/
structure AgreeSymbols (pairs : Pairs) (l r : Symbol) : Prop where
  kind : l.kind = r.kind
  elementType : l.elementType = r.elementType
  shape : AgreeShapes pairs l.shape r.shape
  value : AgreeShapes pairs l.value r.value

theorem Agree.mono (hsub : pairs ⊆ pairs') {a b : Element} (h : Agree pairs a b) :
    Agree pairs' a b := by
  cases h with
  | int n => exact .int n
  | user hu => exact .user hu
  | paired hg hh hm => exact .paired hg hh (hsub hm)

theorem AgreeShapes.mono (hsub : pairs ⊆ pairs') {l r : Option Shape} (h : AgreeShapes pairs l r) :
    AgreeShapes pairs' l r := by
  cases h with
  | none => exact .none
  | some h => exact .some (h.imp fun _ _ ha => ha.mono hsub)

theorem AgreeSymbols.mono (hsub : pairs ⊆ pairs') {l r : Symbol} (h : AgreeSymbols pairs l r) :
    AgreeSymbols pairs' l r :=
  ⟨h.kind, h.elementType, h.shape.mono hsub, h.value.mono hsub⟩

theorem AgreeShapes.of_mem_zip {l r : Option Shape} (h : AgreeShapes pairs l r) {a b : Element}
    (hz : (a, b) ∈ (l.getD []).zip (r.getD [])) : Agree pairs a b := by
  cases h with
  | none => cases hz
  | some h => exact (List.forall₂_iff_zip.1 h).2 hz

theorem AgreeSymbols.of_faces {l r : Symbol} (h : AgreeSymbols pairs l r) {a b : Element}
    (hf : l.Faces r a b) : Agree pairs a b :=
  hf.elim h.shape.of_mem_zip h.value.of_mem_zip

/-- Generated names that face each other in symbols that agree are paired. -/
theorem AgreeSymbols.mem_of_faces {l r : Symbol} (hag : AgreeSymbols pairs l r) {g h : String}
    (hf : l.Faces r (.named g) (.named h)) (hg : isGenerated g = true) : (h, g) ∈ pairs := by
  generalize ha : Element.named g = a at hf
  generalize hb : Element.named h = b at hf
  cases hag.of_faces hf with
  | int n => cases ha
  | user hu =>
    rw [Element.named_inj.1 ha, hu] at hg
    cases hg
  | paired _ _ hm => rwa [Element.named_inj.1 ha, Element.named_inj.1 hb]

/-! ## What a comparison does to the pairs -/

/-- The two names have symbols that agree. -/
def Settled (left right : Context) (pairs : Pairs) (g h : String) : Prop :=
  ∃ l r, left.table.get? g = some l ∧ right.table.get? h = some r ∧ AgreeSymbols pairs l r

theorem Settled.mono (hsub : pairs ⊆ pairs') {g h : String} (hs : Settled left right pairs g h) :
    Settled left right pairs' g h := by
  obtain ⟨l, r, hl, hr, hag⟩ := hs
  exact ⟨l, r, hl, hr, hag.mono hsub⟩

/-- Pairs are added, of names that correspond, and no name of the right side is paired twice. -/
structure Widens (left right : Context) (pairs pairs' : Pairs) : Prop where
  subset : pairs ⊆ pairs'
  nodup : (pairs.map Prod.fst).Nodup → (pairs'.map Prod.fst).Nodup
  corresponds : ∀ p ∈ pairs', p ∉ pairs → Corresponds left right p.2 p.1

theorem Widens.refl (pairs : Pairs) : Widens left right pairs pairs :=
  ⟨fun _ hp => hp, id, fun _ hp hn => absurd hp hn⟩

theorem Widens.trans (h₁ : Widens left right pairs pairs') (h₂ : Widens left right pairs' pairs'') :
    Widens left right pairs pairs'' := by
  refine ⟨fun p hp => h₂.subset (h₁.subset hp), h₂.nodup ∘ h₁.nodup, fun p hp hn => ?_⟩
  by_cases hmid : p ∈ pairs'
  · exact h₁.corresponds p hmid hn
  · exact h₂.corresponds p hp hmid

theorem not_mem_keys {h : String} (hnone : pairs.lookup h = none) : h ∉ pairs.map Prod.fst := by
  intro hmem
  obtain ⟨p, hp, rfl⟩ := List.mem_map.1 hmem
  simpa using List.lookup_eq_none_iff.1 hnone p hp

theorem Widens.push {g h : String} (hnew : pairs.lookup h = none)
    (hc : Corresponds left right g h) : Widens left right pairs ((h, g) :: pairs) := by
  refine ⟨fun p hp => .tail _ hp, fun hn => ?_, fun p hp hn => ?_⟩
  · exact List.nodup_cons.2 ⟨not_mem_keys hnew, hn⟩
  · rcases List.mem_cons.1 hp with rfl | hp
    · exact hc
    · exact absurd hp hn

/-- The symbols of the pairs that were added agree. -/
def SettlesNew (left right : Context) (pairs pairs' : Pairs) : Prop :=
  ∀ p ∈ pairs', p ∉ pairs → Settled left right pairs' p.2 p.1

theorem SettlesNew.refl (pairs : Pairs) : SettlesNew left right pairs pairs :=
  fun _ hp hn => absurd hp hn

theorem SettlesNew.trans (h₁ : SettlesNew left right pairs pairs')
    (h₂ : SettlesNew left right pairs' pairs'') (hsub : pairs' ⊆ pairs'') :
    SettlesNew left right pairs pairs'' := by
  intro p hp hn
  by_cases hmid : p ∈ pairs'
  · exact (h₁ p hmid hn).mono hsub
  · exact h₂ p hp hmid

/-- The comparison ends with a verdict, having paired only names that correspond. If the verdict is
positive then `Q` holds of the pairs, and the symbols of what was paired agree. -/
def Compares (left right : Context) (x : Pairing Bool) (Q : Pairs → Prop) : Prop :=
  ∀ pairs, ∃ verdict pairs', x.run pairs = .ok (verdict, pairs') ∧
    Widens left right pairs pairs' ∧
    (verdict = true → Q pairs' ∧ SettlesNew left right pairs pairs')

section
variable {Q R : Pairs → Prop} {x y : Pairing Bool}

theorem Compares.pure {b : Bool} (h : b = true → ∀ pairs, Q pairs) :
    Compares left right (pure b) Q :=
  fun pairs => ⟨b, pairs, rfl, .refl pairs, fun hb => ⟨h hb pairs, .refl pairs⟩⟩

theorem Compares.imp (hx : Compares left right x Q) (h : ∀ pairs, Q pairs → R pairs) :
    Compares left right x R := by
  intro pairs
  obtain ⟨b, pairs', hrun, hw, hq⟩ := hx pairs
  exact ⟨b, pairs', hrun, hw, fun hb => ⟨h _ (hq hb).1, (hq hb).2⟩⟩

/-- One comparison after another, the second only if the first is positive. -/
theorem Compares.and (hx : Compares left right x Q) (hy : Compares left right y R)
    (hQ : ∀ {pairs pairs'}, pairs ⊆ pairs' → Q pairs → Q pairs') :
    Compares left right (do if ← x then y else Pure.pure false) fun pairs => Q pairs ∧ R pairs := by
  intro pairs
  obtain ⟨b, pairs₁, hrun, hw, hq⟩ := hx pairs
  cases b with
  | false => exact ⟨false, pairs₁, bind_ok.2 ⟨_, _, hrun, pure_ok.2 rfl⟩, hw, nofun⟩
  | true =>
    obtain ⟨b', pairs₂, hrun', hw', hr⟩ := hy pairs₁
    refine ⟨b', pairs₂, bind_ok.2 ⟨_, _, hrun, hrun'⟩, hw.trans hw', fun hb' => ?_⟩
    exact ⟨⟨hQ hw'.subset (hq rfl).1, (hr hb').1⟩, (hq rfl).2.trans (hr hb').2 hw'.subset⟩

end

/-! ## Elements, shapes and symbols -/

section
variable {descend : String → String → Pairing Bool}

/-- What is asked of the comparison of the symbols of two names at the same place. -/
def Descends (left right : Context) (descend : String → String → Pairing Bool) (a b : Element) :
    Prop :=
  ∀ g h, a = .named g → b = .named h → isGenerated g = true → isGenerated h = true →
    Corresponds left right g h ∧
      Compares left right (descend g h) fun pairs => Settled left right pairs g h

theorem agreeElement_compares {a b : Element} (ha : a.Plain) (hb : b.Plain)
    (hd : Descends left right descend a b) :
    Compares left right (agreeElement descend a b) fun pairs => Agree pairs a b := by
  cases ha with
  | int m =>
    refine .pure fun hab pairs => ?_
    obtain rfl := beq_iff_eq.1 hab
    exact .int m
  | named g =>
    cases hb with
    | int n => exact .pure fun hab => by cases beq_iff_eq.1 hab
    | named h =>
      unfold agreeElement
      simp only [Element.symbolName?_named]
      cases hg : isGenerated g with
      | false =>
        cases hh : isGenerated h with
        | false =>
          refine .pure fun hab pairs => ?_
          obtain rfl : g = h := beq_iff_eq.1 hab
          exact .user hg
        | true => exact .pure nofun
      | true =>
        cases hh : isGenerated h with
        | false => exact .pure nofun
        | true =>
          obtain ⟨hc, hdesc⟩ := hd g h rfl rfl hg hh
          intro pairs
          cases hlook : pairs.lookup h with
          | some partner =>
            refine ⟨partner == g, pairs, ?_, .refl pairs, fun hp => ⟨?_, .refl pairs⟩⟩
            · refine bind_ok.2 ⟨_, _, get_ok.2 rfl, ?_⟩
              simp only [hlook]
              exact pure_ok.2 rfl
            · obtain rfl : partner = g := beq_iff_eq.1 hp
              exact .paired hg hh (mem_of_lookup hlook)
          | none =>
            obtain ⟨b, pairs', hrun, hw, hq⟩ := hdesc ((h, g) :: pairs)
            have hpush : Widens left right pairs ((h, g) :: pairs) := .push hlook hc
            refine ⟨b, pairs', ?_, hpush.trans hw, fun hb => ⟨?_, fun p hp hn => ?_⟩⟩
            · refine bind_ok.2 ⟨_, _, get_ok.2 rfl, ?_⟩
              simp only [hlook]
              exact bind_ok.2 ⟨_, _, modify_ok.2 rfl, hrun⟩
            · exact .paired hg hh (hw.subset (.head _))
            · -- the new pair's own symbols are the ones that were just compared
              by_cases hmid : p ∈ (h, g) :: pairs
              · obtain rfl : p = (h, g) := by simpa [hn] using hmid
                exact (hq hb).1
              · exact (hq hb).2 p hp hmid

theorem agreeElements_compares : ∀ {ls rs : Shape}, (∀ e ∈ ls, e.Plain) → (∀ e ∈ rs, e.Plain) →
    (∀ a b, (a, b) ∈ ls.zip rs → Descends left right descend a b) →
    Compares left right (agreeElements descend ls rs) fun pairs =>
      List.Forall₂ (Agree pairs) ls rs
  | [], [], _, _, _ => .pure fun _ _ => .nil
  | [], _ :: _, _, _, _ => .pure nofun
  | _ :: _, [], _, _, _ => .pure nofun
  | a :: ls, b :: rs, hl, hr, hd => by
    have hhead := agreeElement_compares (hl a (.head _)) (hr b (.head _)) (hd a b (.head _))
    have hrest := agreeElements_compares (fun e he => hl e (.tail _ he))
      (fun e he => hr e (.tail _ he)) fun c d hcd => hd c d (.tail _ hcd)
    exact (hhead.and hrest fun hsub ha => ha.mono hsub).imp fun _ h => .cons h.1 h.2

theorem agreeShapes_compares {l r : Option Shape} (hl : ∀ e ∈ l.getD [], e.Plain)
    (hr : ∀ e ∈ r.getD [], e.Plain)
    (hd : ∀ a b, (a, b) ∈ (l.getD []).zip (r.getD []) → Descends left right descend a b) :
    Compares left right (agreeShapes descend l r) fun pairs => AgreeShapes pairs l r := by
  cases l with
  | none =>
    cases r with
    | none => exact .pure fun _ _ => .none
    | some rs => exact .pure nofun
  | some ls =>
    cases r with
    | none => exact .pure nofun
    | some rs =>
      rw [agreeShapes]
      split
      · exact (agreeElements_compares hl hr hd).imp fun _ h => .some h
      · exact .pure nofun

/-- The comparison of two symbols, whatever compares the symbols of the names they mention. -/
def compareSymbols (descend : String → String → Pairing Bool) (l r : Symbol) : Pairing Bool := do
  if l.kind ≠ r.kind || l.elementType ≠ r.elementType then return false
  else if ← agreeShapes descend l.shape r.shape then agreeShapes descend l.value r.value
  else return false

theorem agreeSymbols_zero (left right : SymbolTable) (l r : Symbol) :
    agreeSymbols left right 0 l r = compareSymbols (fun _ _ => pure false) l r :=
  rfl

theorem agreeSymbols_succ (left right : SymbolTable) (depth : Nat) (l r : Symbol) :
    agreeSymbols left right (depth + 1) l r = compareSymbols (fun g h => do
      let l ← left.get g
      let r ← right.get h
      agreeSymbols left right depth l r) l r :=
  rfl

theorem compareSymbols_compares {l r : Symbol} (hl : l.Plain) (hr : r.Plain)
    (hd : ∀ a b, l.Faces r a b → Descends left right descend a b) :
    Compares left right (compareSymbols descend l r) fun pairs => AgreeSymbols pairs l r := by
  unfold compareSymbols
  split
  · exact .pure nofun
  · next hsame =>
    simp only [ne_eq, decide_not, Bool.or_eq_true, Bool.not_eq_true', decide_eq_false_iff_not,
      not_or, Decidable.not_not] at hsame
    have hshape := agreeShapes_compares hl.1 hr.1 fun a b hz => hd a b (.inl hz)
    have hvalue := agreeShapes_compares hl.2 hr.2 fun a b hz => hd a b (.inr hz)
    exact (hshape.and hvalue fun hsub h => h.mono hsub).imp fun _ h =>
      ⟨hsame.1, hsame.2, h.1, h.2⟩

end

/-- Induction on the nesting still allowed: a descent goes to the symbols of names that correspond,
which both sides have. -/
theorem agreeSymbols_compares (hL : left.Resolved) (hR : right.Resolved) (depth : Nat) :
    ∀ {l r : Symbol}, l.Plain → r.Plain →
      (∀ g h, l.Faces r (.named g) (.named h) → isGenerated g = true → isGenerated h = true →
        Corresponds left right g h) →
      Compares left right (agreeSymbols left.table right.table depth l r) fun pairs =>
        AgreeSymbols pairs l r := by
  induction depth with
  | zero =>
    intro l r hl hr hc
    rw [agreeSymbols_zero]
    refine compareSymbols_compares hl hr fun a b hf g h ha hb hg hh => ?_
    subst ha hb
    exact ⟨hc g h hf hg hh, .pure nofun⟩
  | succ depth ih =>
    intro l r hl hr hc
    rw [agreeSymbols_succ]
    refine compareSymbols_compares hl hr fun a b hf g h ha hb hg hh => ?_
    subst ha hb
    have hcor := hc g h hf hg hh
    obtain ⟨hng, hnh⟩ := hcor.needs
    obtain ⟨l', hl'⟩ := hL.defined g hng
    obtain ⟨r', hr'⟩ := hR.defined h hnh
    refine ⟨hcor, fun pairs => ?_⟩
    obtain ⟨b, pairs', hrun, hw, hq⟩ := ih (hL.plain g l' hng hl') (hR.plain h r' hnh hr')
      (fun g' h' hf' => hcor.nested hl' hr' hf') pairs
    refine ⟨b, pairs', ?_, hw, fun hb => ⟨⟨l', r', hl', hr', (hq hb).1⟩, (hq hb).2⟩⟩
    exact bind_ok.2 ⟨_, _, lift_ok.2 ⟨_, SymbolTable.get_ok.2 hl', rfl⟩,
      bind_ok.2 ⟨_, _, lift_ok.2 ⟨_, SymbolTable.get_ok.2 hr', rfl⟩, hrun⟩⟩

/-! ## All shared names -/

/-- A user name that both sides need. -/
structure Shared (left right : Context) (name : String) : Prop where
  user : isGenerated name = false
  left : left.Needs name
  right : right.Needs name

/-- The two symbols of a shared name were found to differ. -/
def Conflicts (left right : Context) (names : List String) (e : Error) : Prop :=
  ∃ name l r, name ∈ names ∧ left.table.get? name = some l ∧ right.table.get? name = some r ∧
    e = .mergeConflict name l.text r.text

/-- Comparing shared names either ends at a conflict, or adds pairs under which the symbols of the
names, and those of the pairs added, agree. -/
theorem agreeNames_run (hL : left.Resolved) (hR : right.Resolved) : ∀ {names : List String},
    (∀ name ∈ names, Shared left right name) → ∀ pairs,
    (∃ e, (agreeNames left.table right.table names).run pairs = .error e ∧
      Conflicts left right names e) ∨
    ∃ pairs', (agreeNames left.table right.table names).run pairs = .ok ((), pairs') ∧
      Widens left right pairs pairs' ∧ SettlesNew left right pairs pairs' ∧
      ∀ name ∈ names, Settled left right pairs' name name
  | [], _, pairs => .inr ⟨pairs, rfl, .refl pairs, .refl pairs, nofun⟩
  | name :: rest, hs, pairs => by
    have hname := hs name (.head _)
    obtain ⟨l, hl⟩ := hL.defined name hname.left
    obtain ⟨r, hr⟩ := hR.defined name hname.right
    obtain ⟨b, pairs₁, hrun, hw, hq⟩ := agreeSymbols_compares hL hR (right.table.size + 1)
      (hL.plain name l hname.left hl) (hR.plain name r hname.right hr)
      (fun g h hf => .shared hname.user hname.left hname.right hl hr hf) pairs
    have hstep : (agreeNames left.table right.table (name :: rest)).run pairs =
        (if b then agreeNames left.table right.table rest
          else throw (.mergeConflict name l.text r.text)).run pairs₁ := by
      rw [agreeNames, SymbolTable.get_ok.2 hl, SymbolTable.get_ok.2 hr]
      show (agreeSymbols _ _ _ l r).run pairs >>= _ = _
      rw [hrun]
      rfl
    cases b with
    | false =>
      exact .inl ⟨_, hstep, name, l, r, .head _, hl, hr, rfl⟩
    | true =>
      rw [hstep]
      rcases agreeNames_run hL hR (fun n hn => hs n (.tail _ hn)) pairs₁ with
        ⟨e, he, n, l', r', hn, hrest⟩ | ⟨pairs₂, hrun₂, hw₂, hs₂, hall⟩
      · exact .inl ⟨e, he, n, l', r', .tail _ hn, hrest⟩
      · refine .inr ⟨pairs₂, hrun₂, hw.trans hw₂, (hq rfl).2.trans hs₂ hw₂.subset, fun n hn => ?_⟩
        rcases List.mem_cons.1 hn with rfl | hn
        · exact ⟨l, r, hl, hr, (hq rfl).1.mono hw₂.subset⟩
        · exact hall n hn

/-- What comparing all shared names has to leave: the pairs of the corresponding names, each name of
the right side once, under which the symbols of shared and of paired names agree. -/
structure Agreement (left right : Context) (pairs : Pairs) : Prop where
  nodup : (pairs.map Prod.fst).Nodup
  mem_iff : ∀ g h, (h, g) ∈ pairs ↔ Corresponds left right g h
  shared : ∀ name, Shared left right name → Settled left right pairs name name
  paired : ∀ g h, (h, g) ∈ pairs → Settled left right pairs g h

theorem Agreement.of_run (hw : Widens left right [] pairs) (hs : SettlesNew left right [] pairs)
    (hall : ∀ name, Shared left right name → Settled left right pairs name name) :
    Agreement left right pairs := by
  have hpaired : ∀ g h, (h, g) ∈ pairs → Settled left right pairs g h :=
    fun g h hm => hs (h, g) hm List.not_mem_nil
  refine ⟨hw.nodup List.nodup_nil, fun g h => ⟨fun hm => ?_, fun hc => ?_⟩, hall, hpaired⟩
  · exact hw.corresponds (h, g) hm List.not_mem_nil
  · induction hc with
    | shared hu hnl hnr hl hr hf hg _ =>
      obtain ⟨l, r, hl', hr', hag⟩ := hall _ ⟨hu, hnl, hnr⟩
      obtain rfl := Option.some.inj (hl.symm.trans hl')
      obtain rfl := Option.some.inj (hr.symm.trans hr')
      exact hag.mem_of_faces hf hg
    | nested _ hl hr hf hg _ ih =>
      obtain ⟨l, r, hl', hr', hag⟩ := hpaired _ _ ih
      obtain rfl := Option.some.inj (hl.symm.trans hl')
      obtain rfl := Option.some.inj (hr.symm.trans hr')
      exact hag.mem_of_faces hf hg

end Merge

end PsiCalculus
