import PsiCalculus.Proofs.Merge.Renaming

/-!
# The merged context

`Context.merge_joins`: merging two contexts reports a conflict of a name they share, or unites
renamed copies of them in one table. The new names of the two sides meet only in user names and in
generated names that correspond.

The left side is entered first, under names that are all different (`Side.injOn`). A name of the right
side then is either new, or its entry is there already, as the renamed symbol of the same user name or
of the name's partner; `Settled` says that this is the symbol to be entered.
-/

namespace PsiCalculus

open SymbolTable

namespace Merge

/-! ## The new names of one side -/

theorem mem_needed {c : Context} (hc : c.Resolved) {names : List String}
    (hnames : ∀ name, name ∈ names ↔ c.Needs name) {name : String} {s : Symbol} :
    (name, s) ∈ needed c.table names ↔ c.Needs name ∧ c.table.get? name = some s := by
  simp only [needed, List.mem_filter, List.contains_iff_mem, hnames]
  exact ⟨fun h => ⟨h.2, get?_of_mem hc.nodup h.1⟩, fun h => ⟨mem_entries_of_get? h.2, h.1⟩⟩

theorem nodup_needed {c : Context} (hc : c.Resolved) (names : List String) :
    ((needed c.table names).map Prod.fst).Nodup :=
  hc.nodup.sublist (List.Sublist.map _ List.filter_sublist)

/-- The new names of what a context needs, numbered from `first` on and below `next`. -/
structure Side (c : Context) (partners : Renaming) (first : Nat) (m : String → String) (next : Nat) :
    Prop where
  user : ∀ name, isGenerated name = false → m name = name
  partner : ∀ {name new}, c.Needs name → isGenerated name = true →
    partners.lookup name = some new → m name = new
  number : ∀ {name s}, c.Needs name → isGenerated name = true → partners.lookup name = none →
    c.table.get? name = some s → ∃ id, first ≤ id ∧ id < next ∧ m name = generatedName s.kind id
  distinct : ∀ {a b}, c.Needs a → c.Needs b → isGenerated a = true → isGenerated b = true →
    partners.lookup a = none → partners.lookup b = none → m a = m b → a = b
  first_le : first ≤ next
  next_le : next ≤ first + c.table.size

theorem Renumbers.side {c : Context} (hc : c.Resolved) {names : List String}
    (hnames : ∀ name, name ∈ names ↔ c.Needs name) {partners news : Renaming} {first next : Nat}
    (h : Renumbers partners (needed c.table names) first news next) :
    Side c partners first (newName news) next := by
  refine ⟨fun name hu => ?_, fun {name new} hn hg hp => ?_, fun {name s} hn hg hp hs => ?_,
    fun {a b} hna hnb hga hgb hpa hpb heq => ?_, h.first_le, h.next_le.trans ?_⟩
  · rw [newName, h.user name hu, Option.getD_none]
  · obtain ⟨s, hs⟩ := hc.defined name hn
    exact newName_of_lookup (h.partner ((mem_needed hc hnames).2 ⟨hn, hs⟩) hg hp)
  · obtain ⟨id, hle, hlt, hlook⟩ := h.number ((mem_needed hc hnames).2 ⟨hn, hs⟩) hg hp
    exact ⟨id, hle, hlt, newName_of_lookup hlook⟩
  · obtain ⟨s, hs⟩ := hc.defined a hna
    obtain ⟨s', hs'⟩ := hc.defined b hnb
    have ha := (mem_needed hc hnames).2 ⟨hna, hs⟩
    have hb := (mem_needed hc hnames).2 ⟨hnb, hs'⟩
    obtain ⟨_, -, -, hla⟩ := h.number ha hga hpa
    obtain ⟨_, -, -, hlb⟩ := h.number hb hgb hpb
    rw [newName_of_lookup hla, newName_of_lookup hlb] at heq
    exact h.distinct ha hb hga hgb hpa hpb (by rw [hla, hlb, heq])
  · exact Nat.add_le_add_left (List.length_filter_le ..) _

/-- Every new name is the user's, or has a number below `next`. -/
def Below (m : String → String) (P : String → Prop) (next : Nat) : Prop :=
  ∀ name, P name → isGenerated name = true → ∃ kind id, id < next ∧ m name = generatedName kind id

/-- Numbers run out only past the last word. -/
theorem Below.exhausted {c : Context} {m : String → String} {next : Nat}
    (hb : Below m c.Needs next) (hu : ∀ name, isGenerated name = false → m name = name)
    {name : String} (hn : c.Needs name) {id : Nat} (hid : generatedId? (m name) = some id)
    (hle : Text.maxWord ≤ id) : Text.maxWord < next := by
  cases hg : isGenerated name with
  | false =>
    rw [hu name hg] at hid
    rw [isGenerated_of_generatedId? hid] at hg
    cases hg
  | true =>
    obtain ⟨kind, k, hlt, heq⟩ := hb name hn hg
    rw [heq, generatedId?_generatedName] at hid
    split at hid
    · cases hid
      omega
    · cases hid

section
variable {left : Context} {m : String → String} {next : Nat}

theorem Side.below (hc : left.Resolved) (h : Side left [] 0 m next) : Below m left.Needs next := by
  intro name hn hg
  obtain ⟨s, hs⟩ := hc.defined name hn
  obtain ⟨id, -, hlt, heq⟩ := h.number hn hg rfl hs
  exact ⟨s.kind, id, hlt, heq⟩

/-- Without partners no two names get the same new name. -/
theorem Side.injOn (hc : left.Resolved) (h : Side left [] 0 m next) :
    Set.InjOn m {name | left.Needs name} := by
  have hapart : ∀ {a b}, left.Needs b → isGenerated a = false → isGenerated b = true →
      m a ≠ m b := by
    intro a b hb hga hgb heq
    obtain ⟨kind, id, -, hnew⟩ := h.below hc b hb hgb
    rw [h.user a hga, hnew] at heq
    rw [heq, isGenerated_generatedName] at hga
    cases hga
  intro a ha b hb heq
  cases hga : isGenerated a with
  | false =>
    cases hgb : isGenerated b with
    | false => rwa [h.user a hga, h.user b hgb] at heq
    | true => exact absurd heq (hapart hb hga hgb)
  | true =>
    cases hgb : isGenerated b with
    | false => exact absurd heq.symm (hapart ha hgb hga)
    | true => exact h.distinct ha hb hga hgb rfl rfl heq

end

/-! ## Partners -/

/-- The new names of the right side's names with a partner. -/
def partnersOf (news : Renaming) (pairs : Pairs) : Renaming :=
  pairs.filterMap fun (r, l) => (news.lookup l).map fun new => (r, new)

theorem lookup_partnersOf {news : Renaming} {g h new : String} (hnew : news.lookup g = some new) :
    ∀ {pairs : Pairs}, (pairs.map Prod.fst).Nodup → (h, g) ∈ pairs →
      (partnersOf news pairs).lookup h = some new
  | (r, l) :: rest, hn, hm => by
    rw [List.map_cons, List.nodup_cons] at hn
    rcases List.mem_cons.1 hm with heq | htail
    · cases heq
      simp [partnersOf, hnew]
    · have hne : h ≠ r := by
        rintro rfl
        exact hn.1 (List.mem_map.2 ⟨_, htail, rfl⟩)
      have ih := lookup_partnersOf hnew hn.2 htail
      cases hl : news.lookup l with
      | none => simpa [partnersOf, hl] using ih
      | some other =>
        rw [partnersOf, List.filterMap_cons_some (b := (r, other)) (by simp [hl]),
          lookup_of_ne _ hne]
        exact ih

theorem lookup_partnersOf_eq_none {news : Renaming} {pairs : Pairs} {h : String}
    (hout : ∀ g, (h, g) ∉ pairs) : (partnersOf news pairs).lookup h = none := by
  refine List.lookup_eq_none_iff.2 fun p hp => ?_
  obtain ⟨⟨r, l⟩, hrl, heq⟩ := List.mem_filterMap.1 hp
  obtain ⟨new, -, rfl⟩ := Option.map_eq_some_iff.1 heq
  refine bne_iff_ne.2 ?_
  rintro rfl
  exact hout l hrl

/-! ## Where the two sides meet -/

/-- Both sides numbered, the right one after the left one and with its partners. -/
structure Sides (left right : Context) (pairs : Pairs) (mL mR : String → String) (mid next : Nat) :
    Prop where
  left : Side left [] 0 mL mid
  user : ∀ name, isGenerated name = false → mR name = name
  partner : ∀ {g h}, (h, g) ∈ pairs → mR h = mL g
  number : ∀ {h s}, right.Needs h → isGenerated h = true → (∀ g, (h, g) ∉ pairs) →
    right.table.get? h = some s → ∃ id, mid ≤ id ∧ id < next ∧ mR h = generatedName s.kind id
  distinct : ∀ {a b}, right.Needs a → right.Needs b → isGenerated a = true →
    isGenerated b = true → (∀ g, (a, g) ∉ pairs) → (∀ g, (b, g) ∉ pairs) → mR a = mR b → a = b
  mid_le : mid ≤ next

section
variable {left right : Context} {pairs : Pairs} {mL mR : String → String} {mid next : Nat}

theorem Side.sides (hag : Agreement left right pairs) {newsL : Renaming}
    (hL : Side left [] 0 (newName newsL) mid)
    (hnews : ∀ g, left.Needs g → isGenerated g = true → ∃ new, newsL.lookup g = some new)
    (hR : Side right (partnersOf newsL pairs) mid mR next) :
    Sides left right pairs (newName newsL) mR mid next := by
  refine ⟨hL, hR.user, fun {g h} hm => ?_, fun hn hg hout => hR.number hn hg ?_,
    fun ha hb hga hgb hoa hob => hR.distinct ha hb hga hgb ?_ ?_, hR.first_le⟩
  · have hc := (hag.mem_iff g h).1 hm
    obtain ⟨new, hnew⟩ := hnews g hc.needs.1 hc.generated.1
    rw [newName_of_lookup hnew]
    exact hR.partner hc.needs.2 hc.generated.2 (lookup_partnersOf hnew hag.nodup hm)
  · exact lookup_partnersOf_eq_none hout
  · exact lookup_partnersOf_eq_none hoa
  · exact lookup_partnersOf_eq_none hob

variable (hL : left.Resolved) (hR : right.Resolved) (hag : Agreement left right pairs)
  (hs : Sides left right pairs mL mR mid next)
include hL hR hag hs

/-- A generated name of the right side that has no partner gets a number of its own. -/
theorem Sides.below : Below mR right.Needs next := by
  intro h hn hg
  by_cases hp : ∃ g, (h, g) ∈ pairs
  · obtain ⟨g, hm⟩ := hp
    have hc := (hag.mem_iff g h).1 hm
    obtain ⟨kind, id, hlt, heq⟩ := hs.left.below hL g hc.needs.1 hc.generated.1
    exact ⟨kind, id, hlt.trans_le hs.mid_le, (hs.partner hm).trans heq⟩
  · obtain ⟨s, hget⟩ := hR.defined h hn
    obtain ⟨id, -, hlt, heq⟩ := hs.number hn hg (fun g hm => hp ⟨g, hm⟩) hget
    exact ⟨s.kind, id, hlt, heq⟩

/-- A user name is no generated name's new name. -/
theorem Sides.user_ne {x h : String} (hx : isGenerated x = false) (hn : right.Needs h)
    (hg : isGenerated h = true) : x ≠ mR h := by
  rintro rfl
  obtain ⟨kind, id, -, heq⟩ := hs.below hL hR hag h hn hg
  rw [heq, isGenerated_generatedName] at hx
  cases hx

/-- **The sides meet in partners.** -/
theorem Sides.eq_iff {g h : String} (hng : left.Needs g) (hnh : right.Needs h)
    (hg : isGenerated g = true) (hh : isGenerated h = true) : mL g = mR h ↔ (h, g) ∈ pairs := by
  refine ⟨fun heq => ?_, fun hm => (hs.partner hm).symm⟩
  by_cases hp : ∃ g', (h, g') ∈ pairs
  · obtain ⟨g', hm⟩ := hp
    have hc := (hag.mem_iff g' h).1 hm
    rw [hs.partner hm] at heq
    rwa [hs.left.injOn hL hng hc.needs.1 heq]
  · -- without a partner the number is past those of the left side
    obtain ⟨s, hget⟩ := hR.defined h hnh
    obtain ⟨id, hle, -, hnew⟩ := hs.number hnh hh (fun g' hm => hp ⟨g', hm⟩) hget
    obtain ⟨kind, id', hlt, hold⟩ := hs.left.below hL g hng hg
    have := generatedName_inj (hold.symm.trans (heq.trans hnew))
    omega

/-- Where the sides meet, the symbols agree. -/
theorem Sides.settled {x y : String} (hx : left.Needs x) (hy : right.Needs y) (heq : mL x = mR y) :
    Settled left right pairs x y := by
  cases hgy : isGenerated y with
  | false =>
    rw [hs.user y hgy] at heq
    cases hgx : isGenerated x with
    | false =>
      rw [hs.left.user x hgx] at heq
      subst heq
      exact hag.shared x ⟨hgx, hx, hy⟩
    | true =>
      obtain ⟨kind, id, -, hnew⟩ := hs.left.below hL x hx hgx
      rw [← heq, hnew, isGenerated_generatedName] at hgy
      cases hgy
  | true =>
    cases hgx : isGenerated x with
    | false =>
      rw [hs.left.user x hgx] at heq
      exact absurd heq (hs.user_ne hL hR hag hgx hy hgy)
    | true => exact hag.paired x y ((hs.eq_iff hL hR hag hx hy hgx hgy).1 heq)

omit hL hR hag in
theorem Sides.respects : Respects pairs mL mR :=
  ⟨hs.left.user, hs.user, fun _ hp => hs.partner hp⟩

theorem Sides.symbol_eq {x y : String} {l r : Symbol} (hx : left.Needs x) (hy : right.Needs y)
    (heq : mL x = mR y) (hl : left.table.get? x = some l) (hr : right.table.get? y = some r) :
    l.mapNames mL = r.mapNames mR := by
  obtain ⟨l', r', hl', hr', hagree⟩ := hs.settled hL hR hag hx hy heq
  obtain rfl := Option.some.inj (hl.symm.trans hl')
  obtain rfl := Option.some.inj (hr.symm.trans hr')
  exact hagree.mapNames_eq hs.respects

/-- Names of the right side with one new name have one renamed symbol. -/
theorem Sides.right_eq {y y' : String} {r r' : Symbol} (hy : right.Needs y) (hy' : right.Needs y')
    (heq : mR y = mR y') (hr : right.table.get? y = some r) (hr' : right.table.get? y' = some r') :
    r.mapNames mR = r'.mapNames mR := by
  by_cases hmeet : ∃ x, left.Needs x ∧ mL x = mR y
  · obtain ⟨x, hx, hxy⟩ := hmeet
    obtain ⟨l, hl⟩ := hL.defined x hx
    calc r.mapNames mR = l.mapNames mL := (hs.symbol_eq hL hR hag hx hy hxy hl hr).symm
      _ = r'.mapNames mR := hs.symbol_eq hL hR hag hx hy' (hxy.trans heq) hl hr'
  · have hout : ∀ {z}, mR z = mR y → ∀ g, (z, g) ∉ pairs := fun hz g hm =>
      hmeet ⟨g, ((hag.mem_iff g _).1 hm).needs.1, (hs.partner hm).symm.trans hz⟩
    have hsame : y = y' := by
      cases hg : isGenerated y with
      | false =>
        cases hg' : isGenerated y' with
        | false => rwa [hs.user y hg, hs.user y' hg'] at heq
        | true =>
          rw [hs.user y hg] at heq
          exact absurd heq (hs.user_ne hL hR hag hg hy' hg')
      | true =>
        cases hg' : isGenerated y' with
        | false =>
          rw [hs.user y' hg'] at heq
          exact absurd heq.symm (hs.user_ne hL hR hag hg' hy hg)
        | true => exact hs.distinct hy hy' hg hg' (hout rfl) (hout heq.symm) heq
    subst hsame
    rw [Option.some.inj (hr.symm.trans hr')]

end

/-! ## The merge -/

/-- The tree and the symbols a context needs, under new names that keep those of the user and say of
which kind the others are. -/
structure Renamed (c : Context) (m : String → String) (table : SymbolTable) (tree : Expr) :
    Prop where
  user : ∀ name, isGenerated name = false → m name = name
  generated : ∀ name s, c.Needs name → isGenerated name = true → c.table.get? name = some s →
    ∃ id, m name = generatedName s.kind id
  tree : tree = c.tree.mapNames m
  symbol : ∀ name s, c.Needs name → c.table.get? name = some s →
    table.get? (m name) = some (s.mapNames m)

/-- The names were paired when the symbols of the shared names were compared. -/
def Paired (left right : Context) (g h : String) : Prop :=
  ∃ leftNames rightNames pairs, left.reachable = .ok leftNames ∧
    right.reachable = .ok rightNames ∧
    (agreeNames left.table right.table (shared leftNames rightNames)).run [] = .ok ((), pairs) ∧
    (h, g) ∈ pairs

theorem mem_shared {left right : Context} {leftNames rightNames : List String}
    (hl : ∀ name, name ∈ leftNames ↔ left.Needs name)
    (hr : ∀ name, name ∈ rightNames ↔ right.Needs name) {name : String} :
    name ∈ shared leftNames rightNames ↔ Shared left right name := by
  simp only [shared, mem_sortedNames, List.mem_filter, Bool.and_eq_true, List.contains_iff_mem,
    Bool.not_eq_true', hl, hr]
  exact ⟨fun h => ⟨h.2.2, h.1, h.2.1⟩, fun h => ⟨h.left, h.right, h.user⟩⟩

section
variable {left right : Context} {leftNames rightNames : List String} {pairs : Pairs}
  {newsL newsR : Renaming} {mid next : Nat} {t : SymbolTable}
  (hL : left.Resolved) (hR : right.Resolved)
  (hln : ∀ name, name ∈ leftNames ↔ left.Needs name)
  (hrn : ∀ name, name ∈ rightNames ↔ right.Needs name)
  (hag : Agreement left right pairs)
  (hs : Sides left right pairs (newName newsL) (newName newsR) mid next)
include hL hln hs

theorem Sides.consistent_left : Consistent newsL (needed left.table leftNames) := by
  rintro ⟨x, s⟩ hx ⟨x', s'⟩ hx' heq
  obtain ⟨hn, hget⟩ := (mem_needed hL hln).1 hx
  obtain ⟨hn', hget'⟩ := (mem_needed hL hln).1 hx'
  obtain rfl := hs.left.injOn hL hn hn' heq
  rw [Option.some.inj (hget.symm.trans hget')]

include hR hrn hag

omit hln in
theorem Sides.consistent_right : Consistent newsR (needed right.table rightNames) := by
  rintro ⟨y, r⟩ hy ⟨y', r'⟩ hy' heq
  obtain ⟨hn, hget⟩ := (mem_needed hR hrn).1 hy
  obtain ⟨hn', hget'⟩ := (mem_needed hR hrn).1 hy'
  exact hs.right_eq hL hR hag hn hn' heq hget hget'

theorem Sides.compatible_right (ht : Enters newsL .empty (needed left.table leftNames) t) :
    Compatible newsR t (needed right.table rightNames) := by
  rintro ⟨y, r⟩ hy s hget
  obtain ⟨hn, hr⟩ := (mem_needed hR hrn).1 hy
  rcases ht.names _ (mem_names_of_get? hget) with hnone | ⟨⟨x, l⟩, hx, heq⟩
  · cases hnone
  · obtain ⟨hnx, hl⟩ := (mem_needed hL hln).1 hx
    have hget' := ht.get? _ hx
    rw [heq, hget] at hget'
    rw [Option.some.inj hget']
    exact hs.symbol_eq hL hR hag hnx hn heq hl hr

omit hL hR hln hrn in
/-- A new name of the right side says of which kind the name is, also if it is a partner's. -/
theorem Sides.generated_right {h : String} {r : Symbol} (hn : right.Needs h)
    (hg : isGenerated h = true) (hr : right.table.get? h = some r) :
    ∃ id, newName newsR h = generatedName r.kind id := by
  by_cases hp : ∃ g, (h, g) ∈ pairs
  · obtain ⟨g, hm⟩ := hp
    have hc := (hag.mem_iff g h).1 hm
    obtain ⟨l, r', hl, hr', hagree⟩ := hag.paired g h hm
    obtain rfl := Option.some.inj (hr.symm.trans hr')
    obtain ⟨id, -, -, heq⟩ := hs.left.number hc.needs.1 hc.generated.1 rfl hl
    exact ⟨id, by rw [hs.partner hm, heq, hagree.kind]⟩
  · obtain ⟨id, -, -, heq⟩ := hs.number hn hg (fun g hm => hp ⟨g, hm⟩) hr
    exact ⟨id, heq⟩

end

/-- What the merge is made of: its sides, entered one after the other. -/
theorem merge_eq {left right : Context} {leftNames rightNames : List String} {pairs : Pairs}
    (hl : left.reachable = .ok leftNames) (hr : right.reachable = .ok rightNames)
    (hrun : (agreeNames left.table right.table (shared leftNames rightNames)).run [] =
      .ok ((), pairs)) {newsL newsR : Renaming} {mid next : Nat}
    (hnl : renumber [] 0 (needed left.table leftNames) = (newsL, mid))
    (hnr : renumber (partnersOf newsL pairs) mid (needed right.table rightNames) =
      (newsR, next)) :
    left.merge right = do
      let table ← insertAll newsL .empty (needed left.table leftNames)
      let table ← insertAll newsR table (needed right.table rightNames)
      return (table, left.tree.mapNames (newName newsL), right.tree.mapNames (newName newsR)) := by
  unfold partnersOf at hnr
  simp only [Context.merge, hl, hr, hrun, hnl, hnr, bind, Except.bind]

theorem paired_iff {left right : Context} {leftNames rightNames : List String} {pairs : Pairs}
    (hl : left.reachable = .ok leftNames) (hr : right.reachable = .ok rightNames)
    (hrun : (agreeNames left.table right.table (shared leftNames rightNames)).run [] =
      .ok ((), pairs)) {g h : String} : Paired left right g h ↔ (h, g) ∈ pairs := by
  refine ⟨fun ⟨_, _, pairs', hl', hr', hrun', hm⟩ => ?_, fun hm => ⟨_, _, _, hl, hr, hrun, hm⟩⟩
  rw [hl] at hl'
  rw [hr] at hr'
  cases hl'
  cases hr'
  rw [hrun] at hrun'
  cases hrun'
  exact hm

/-- Both contexts renamed over one table that has nothing else. The new names of the left side are
different; those of the two sides meet in user names and where generated names were paired, that is,
where they correspond. -/
structure Joined (left right : Context) (mL mR : String → String) (table : SymbolTable)
    (leftTree rightTree : Expr) : Prop where
  renamedLeft : Renamed left mL table leftTree
  renamedRight : Renamed right mR table rightTree
  nodup : table.names.Nodup
  names : ∀ name, name ∈ table.names ↔
    (∃ x, left.Needs x ∧ mL x = name) ∨ ∃ x, right.Needs x ∧ mR x = name
  injOn : Set.InjOn mL {x | left.Needs x}
  meet : ∀ g h, left.Needs g → right.Needs h → isGenerated g = true → isGenerated h = true →
    (mL g = mR h ↔ Paired left right g h)
  paired : ∀ g h, Paired left right g h ↔ Corresponds left right g h

section
variable {left right : Context} {leftNames rightNames : List String} {pairs : Pairs}
  {newsL newsR : Renaming} {mid next : Nat} {t t' : SymbolTable}

theorem Sides.joined (hL : left.Resolved) (hR : right.Resolved)
    (hln : ∀ name, name ∈ leftNames ↔ left.Needs name)
    (hrn : ∀ name, name ∈ rightNames ↔ right.Needs name)
    (hag : Agreement left right pairs)
    (hp : ∀ g h, Paired left right g h ↔ (h, g) ∈ pairs)
    (hs : Sides left right pairs (newName newsL) (newName newsR) mid next)
    (ht : Enters newsL .empty (needed left.table leftNames) t)
    (ht' : Enters newsR t (needed right.table rightNames) t') :
    Joined left right (newName newsL) (newName newsR) t' (left.tree.mapNames (newName newsL))
      (right.tree.mapNames (newName newsR)) := by
  have hleft : ∀ name s, left.Needs name → left.table.get? name = some s →
      t'.get? (newName newsL name) = some (s.mapNames (newName newsL)) := fun name s hn hget =>
    ht'.grows.get? (ht.get? (name, s) ((mem_needed hL hln).2 ⟨hn, hget⟩))
  have hright : ∀ name s, right.Needs name → right.table.get? name = some s →
      t'.get? (newName newsR name) = some (s.mapNames (newName newsR)) := fun name s hn hget =>
    ht'.get? (name, s) ((mem_needed hR hrn).2 ⟨hn, hget⟩)
  refine ⟨⟨hs.left.user, fun name s hn hg hget => ?_, rfl, hleft⟩,
    ⟨hs.user, fun name s hn hg hget => hs.generated_right hag hn hg hget, rfl, hright⟩,
    ht'.nodup (ht.nodup List.nodup_nil), fun name => ⟨fun hn => ?_, fun hn => ?_⟩,
    hs.left.injOn hL, fun g h hng hnh hg hh => ?_, fun g h => ?_⟩
  · obtain ⟨id, -, -, heq⟩ := hs.left.number hn hg rfl hget
    exact ⟨id, heq⟩
  · rcases ht'.names name hn with hn | ⟨e, he, heq⟩
    · rcases ht.names name hn with hn | ⟨e, he, heq⟩
      · cases hn
      · exact .inl ⟨e.1, ((mem_needed hL hln).1 he).1, heq⟩
    · exact .inr ⟨e.1, ((mem_needed hR hrn).1 he).1, heq⟩
  · rcases hn with ⟨x, hx, rfl⟩ | ⟨x, hx, rfl⟩
    · obtain ⟨s, hget⟩ := hL.defined x hx
      exact mem_names_of_get? (hleft x s hx hget)
    · obtain ⟨s, hget⟩ := hR.defined x hx
      exact mem_names_of_get? (hright x s hx hget)
  · rw [hp, hs.eq_iff hL hR hag hng hnh hg hh]
  · rw [hp, hag.mem_iff]

end

end Merge

open Merge in
/-- **A merge is faithful.** If every name the contexts need has a symbol made of plain elements, then
the merge meets a conflict of a name they share, or runs out of numbers, having more symbols than
there are words, or joins the contexts. -/
theorem Context.merge_joins {left right : Context} (hL : left.Resolved) (hR : right.Resolved) :
    (∃ name l r, Shared left right name ∧ left.table.get? name = some l ∧
      right.table.get? name = some r ∧
      left.merge right = .error (.mergeConflict name l.text r.text)) ∨
    (∃ name, left.merge right = .error (.exhausted name) ∧
      Text.maxWord < left.table.size + right.table.size) ∨
    ∃ table leftTree rightTree mL mR,
      left.merge right = .ok (table, leftTree, rightTree) ∧
      Joined left right mL mR table leftTree rightTree := by
  obtain ⟨leftNames, hl, hln⟩ := left.reachable_ok hL.defined
  obtain ⟨rightNames, hr, hrn⟩ := right.reachable_ok hR.defined
  have hshared : ∀ name, name ∈ shared leftNames rightNames ↔ Shared left right name :=
    fun _ => mem_shared hln hrn
  rcases agreeNames_run hL hR (fun name hn => (hshared name).1 hn) [] with
    ⟨e, hrun, name, l, r, hn, hgl, hgr, rfl⟩ | ⟨pairs, hrun, hw, hnew, hall⟩
  · refine .inl ⟨name, l, r, (hshared name).1 hn, hgl, hgr, ?_⟩
    simp [Context.merge, hl, hr, hrun, bind, Except.bind]
  have hag : Agreement left right pairs :=
    .of_run hw hnew fun name hs => hall name ((hshared name).2 hs)
  obtain ⟨newsL, mid, hnl⟩ : ∃ newsL mid, renumber [] 0 (needed left.table leftNames) = (newsL, mid) :=
    ⟨_, _, rfl⟩
  obtain ⟨newsR, next, hnr⟩ : ∃ newsR next, renumber (partnersOf newsL pairs) mid
    (needed right.table rightNames) = (newsR, next) := ⟨_, _, rfl⟩
  have hnumL := renumber_renumbers [] (needed left.table leftNames) 0 (nodup_needed hL _)
  have hnumR := renumber_renumbers (partnersOf newsL pairs) (needed right.table rightNames) mid
    (nodup_needed hR _)
  rw [hnl] at hnumL
  rw [hnr] at hnumR
  have hsideL := hnumL.side hL hln
  have hsideR := hnumR.side hR hrn
  have hs : Sides left right pairs (newName newsL) (newName newsR) mid next := by
    refine hsideL.sides hag (fun g hn hg => ?_) hsideR
    obtain ⟨s, hget⟩ := hL.defined g hn
    obtain ⟨id, -, -, hlook⟩ := hnumL.number ((mem_needed hL hln).2 ⟨hn, hget⟩) hg rfl
    exact ⟨_, hlook⟩
  have hsizeL := hsideL.next_le
  have hsizeR := hsideR.next_le
  rw [merge_eq hl hr hrun hnl hnr]
  have hempty : Compatible newsL .empty (needed left.table leftNames) := nofun
  rcases insertAll_run hempty (hs.consistent_left hL hln) with
    ⟨e, he, herr, id, hid, hle⟩ | ⟨t, hins, ht⟩
  · have hn := ((mem_needed hL hln).1 he).1
    have hlt := (hsideL.below hL).exhausted hsideL.user hn hid hle
    exact .inr (.inl ⟨newName newsL e.1, by rw [herr]; rfl, by omega⟩)
  rcases insertAll_run (hs.compatible_right hL hR hln hrn hag ht)
      (hs.consistent_right hL hR hrn hag) with ⟨e, he, herr, id, hid, hle⟩ | ⟨t', hins', ht'⟩
  · have hn := ((mem_needed hR hrn).1 he).1
    have hlt := (hs.below hL hR hag).exhausted hs.user hn hid hle
    exact .inr (.inl ⟨newName newsR e.1, by simp [hins, herr, bind, Except.bind], by omega⟩)
  · refine .inr (.inr ⟨t', _, _, _, _, ?_,
      hs.joined hL hR hln hrn hag (fun _ _ => paired_iff hl hr hrun) ht ht'⟩)
    simp [hins, hins', bind, Except.bind, pure, Except.pure]

namespace Merge

/-- The length of `A` and the range of an index depend on each other. -/
def cyclicLeft : Context where
  tree := .array "A" (some [.named "_a5"])
  table :=
    { entries := [("A", .array (some [.named "_a5"]) none),
        ("_a5", .array (some []) (some [.named "_i9"])), ("_i9", .index (.named "_a5"))]
      counter := 10 }

/-- The same under other names, beside an array of its own. -/
def cyclicRight : Context where
  tree := .binary (.outer .plus) none (.array "A" (some [.named "_a7"])) (.array "_a0" none)
  table :=
    { entries := [("_a0", .array none none), ("_i2", .index (.named "_a7")),
        ("A", .array (some [.named "_a7"]) none),
        ("_a7", .array (some []) (some [.named "_i2"]))]
      counter := 8 }

theorem cyclicLeft_reachable : cyclicLeft.reachable = .ok ["A", "_i9", "_a5"] := by
  simp [Context.reachable, SymbolTable.closure, cyclicLeft, Expr.names, Expr.namesAll, Expr.array,
    Payload.names, Shape.names, SymbolTable.get?, Symbol.array, Symbol.index, Symbol.dependencies,
    List.lookup_cons, List.filterMap_cons, Element.symbolName?, Element.named, Expr.name?]

theorem cyclicRight_reachable : cyclicRight.reachable = .ok ["A", "_i2", "_a7", "_a0"] := by
  simp [Context.reachable, SymbolTable.closure, cyclicRight, Expr.names, Expr.namesAll, Expr.array,
    Expr.binary, Payload.names, Shape.names, SymbolTable.get?, Symbol.array, Symbol.index,
    Symbol.dependencies, List.lookup_cons, List.filterMap_cons, Element.symbolName?, Element.named,
    Expr.name?]

theorem merge_cyclic_isOk : (cyclicLeft.merge cyclicRight).isOk = true := by
  rw [Context.merge, cyclicLeft_reachable, cyclicRight_reachable]
  decide +kernel

theorem merge_joins_cyclic : cyclicLeft.Resolved ∧ cyclicRight.Resolved ∧
    ∃ table leftTree rightTree mL mR,
      cyclicLeft.merge cyclicRight = .ok (table, leftTree, rightTree) ∧
      Joined cyclicLeft cyclicRight mL mR table leftTree rightTree := by
  have hL : cyclicLeft.Resolved :=
    .of_closed ["A", "_i9", "_a5"] (by decide) (by decide) (by decide)
  have hR : cyclicRight.Resolved :=
    .of_closed ["A", "_i2", "_a7", "_a0"] (by decide) (by decide) (by decide)
  have hok := merge_cyclic_isOk
  refine ⟨hL, hR, ?_⟩
  rcases Context.merge_joins hL hR with ⟨_, _, _, -, -, -, herr⟩ | ⟨_, herr, -⟩ | hjoined
  · rw [herr] at hok
    cases hok
  · rw [herr] at hok
    cases hok
  · exact hjoined

end Merge

end PsiCalculus
