import PsiCalculus.Proofs.Growth
import PsiCalculus.Shape.Permutation

/-!
# Axes and multi-indices

A list `p` of places moves axis `j` to place `p[j]`. `permutedLengths` are the lengths of the axes
after that, `unpermute` takes an index over the moved axes back to one over the axes.

* `unpermute_inRange`: an index is in range of the moved axes if the one it comes from is in range.
* `Shape.Gathers targets items arranged`: `arranged` are the items that the targets count to. What is
  gathered by a permutation is a permutation of the items (`Gathers.perm`), and stands over what is
  gathered from another list in the same way (`Gathers.rel`).
* `Shape.place?_eq_some_iff`: placing succeeds for permutations only, and its result is the list from
  which the items are gathered again. `Shape.arrange?_eq_some_iff`: arranging gathers.
-/

namespace PsiCalculus

/-- The multi-index has an entry for each axis, from zero up to but not including its length. -/
def InRange (x shape : List Int) : Prop := List.Forall₂ (fun i n => 0 ≤ i ∧ i < n) x shape

instance InRange.decidable (x shape : List Int) : Decidable (InRange x shape) :=
  inferInstanceAs (Decidable (List.Forall₂ (fun i n => 0 ≤ i ∧ i < n) x shape))

theorem InRange.append {x y s s' : List Int} (hx : InRange x s) (hy : InRange y s') :
    InRange (x ++ y) (s ++ s') := List.rel_append hx hy

theorem InRange.dropLast {x s : List Int} {k : Int} (h : InRange (x ++ [k]) s) :
    InRange x s.dropLast := by
  have hlen : x.length = s.length - 1 := by
    have := h.length_eq
    simp only [List.length_append, List.length_singleton] at this
    omega
  have htake := List.forall₂_take x.length h
  rw [List.take_left, hlen, ← List.dropLast_eq_take] at htake
  exact htake

theorem Shape.at?_natCast {α : Type} (items : List α) (a : Nat) :
    Shape.at? items (a : Int) = items[a]? := by
  have hnn : ¬ (a : Int) < 0 := by omega
  simp [Shape.at?, hnn]

namespace Tensor

/-- The places of `n` axes. -/
def places (n : Nat) : List Int := (List.range n).map Int.ofNat

@[simp] theorem length_places (n : Nat) : (places n).length = n := by simp [places]

theorem mem_places {n : Nat} {target : Int} :
    target ∈ places n ↔ ∃ a : Nat, a < n ∧ target = a := by
  simp only [places, List.mem_map, List.mem_range]
  exact exists_congr fun a => and_congr_right fun _ => eq_comm

theorem nodup_places (n : Nat) : (places n).Nodup :=
  List.nodup_range.map fun _ _ h => Int.ofNat.inj h

/-- As many targets as there are places, each a place and none named twice, name every place. -/
theorem perm_places {targets : List Int} {n : Nat} (hnodup : targets.Nodup)
    (hmem : ∀ target ∈ targets, target ∈ places n) (hlen : targets.length = n) :
    targets.Perm (places n) :=
  (List.subperm_of_subset hnodup hmem).perm_of_length_le (by simp [hlen])

/-- Each target is a place. -/
theorem exists_place {targets : List Int} {n j : Nat} (hperm : targets.Perm (places n))
    (hj : j < n) : ∃ a < n, targets[j]? = some (a : Int) := by
  have hlt : j < targets.length := by rwa [hperm.length_eq, length_places]
  obtain ⟨a, ha, hja⟩ := mem_places.1 (hperm.mem_iff.1 (List.getElem_mem hlt))
  exact ⟨a, ha, by rw [List.getElem?_eq_getElem hlt, hja]⟩

/-- Each place is named by one target. -/
theorem existsUnique_target {targets : List Int} {n a : Nat} (hperm : targets.Perm (places n))
    (ha : a < n) : ∃! j : Nat, targets[j]? = some (a : Int) := by
  obtain ⟨j, hj⟩ := List.mem_iff_getElem?.1 (hperm.mem_iff.2 (mem_places.2 ⟨a, ha, rfl⟩))
  refine ⟨j, hj, fun k hk => ?_⟩
  exact (List.getElem?_inj (List.getElem?_eq_some_iff.1 hk).1
    (hperm.nodup_iff.2 (nodup_places n))).1 (hk.trans hj.symm)

end Tensor

/-! ## Items that targets count to -/

namespace Shape

open Tensor

variable {α β : Type}

theorem at?_eq_some_iff {items : List α} {p : Int} {x : α} :
    at? items p = some x ↔ ∃ a : Nat, p = a ∧ items[a]? = some x := by
  constructor
  · intro h
    unfold at? at h
    split at h
    · cases h
    · next hp => exact ⟨p.toNat, (Int.toNat_of_nonneg (Int.not_lt.1 hp)).symm, h⟩
  · rintro ⟨a, rfl, ha⟩
    rw [at?_natCast, ha]

theorem at?_map (f : α → β) (items : List α) (p : Int) :
    at? (items.map f) p = (at? items p).map f := by
  unfold at?
  split
  · rfl
  · rw [List.getElem?_map]

theorem mem_of_at? {items : List α} {p : Int} {x : α} (h : at? items p = some x) : x ∈ items := by
  obtain ⟨a, -, ha⟩ := at?_eq_some_iff.1 h
  exact List.mem_of_getElem? ha

/-- Entry `j` of `arranged` is the item that target `j` counts to. -/
def Gathers (targets : List Int) (items arranged : List α) : Prop :=
  List.Forall₂ (fun target x => at? items target = some x) targets arranged

namespace Gathers

variable {targets : List Int} {items arranged : List α} {n : Nat}

theorem length_eq (h : Gathers targets items arranged) : arranged.length = targets.length :=
  (List.Forall₂.length_eq h).symm

theorem map (f : α → β) (h : Gathers targets items arranged) :
    Gathers targets (items.map f) (arranged.map f) := by
  refine List.forall₂_map_right_iff.2 (List.Forall₂.imp (fun target x hx => ?_) h)
  rw [at?_map, hx, Option.map_some]

theorem getElem?_eq (h : Gathers targets items arranged) {j a : Nat}
    (hj : targets[j]? = some (a : Int)) : arranged[j]? = items[a]? := by
  obtain ⟨hlt, hja⟩ := List.getElem?_eq_some_iff.1 hj
  obtain ⟨hlen, hget⟩ := List.forall₂_iff_get.1 h
  have hitem := hget j hlt (hlen ▸ hlt)
  rw [List.get_eq_getElem, hja, at?_natCast] at hitem
  rw [hitem, List.getElem?_eq_getElem (hlen ▸ hlt)]
  rfl

/-- Nothing but items is gathered. -/
theorem subset (h : Gathers targets items arranged) : arranged ⊆ items := by
  intro x hx
  obtain ⟨target, -, htarget⟩ := exists_of_mem_right h hx
  exact mem_of_at? htarget

/-- What holds between the items of two lists holds between the items that are gathered. -/
theorem rel {R : α → β → Prop} {items' arranged' : List β} (h : Gathers targets items arranged)
    (h' : Gathers targets items' arranged') (hR : List.Forall₂ R items items') :
    List.Forall₂ R arranged arranged' := by
  unfold Gathers at h h'
  induction h generalizing arranged' with
  | nil =>
    cases h'
    exact .nil
  | cons hx _ ih =>
    cases h' with
    | cons hy h' =>
      obtain ⟨a, rfl, ha⟩ := at?_eq_some_iff.1 hx
      rw [at?_natCast] at hy
      obtain ⟨hi, rfl⟩ := List.getElem?_eq_some_iff.1 ha
      obtain ⟨hi', rfl⟩ := List.getElem?_eq_some_iff.1 hy
      exact .cons ((List.forall₂_iff_get.1 hR).2 a hi hi') (ih h')

/-- A permutation of the places gathers. -/
theorem exists_of_perm (hperm : targets.Perm (places items.length)) :
    ∃ arranged, Gathers targets items arranged := by
  have hread : ∀ target ∈ targets, ∃ x, at? items target = some x := by
    intro target htarget
    obtain ⟨a, ha, rfl⟩ := mem_places.1 (hperm.mem_iff.1 htarget)
    exact ⟨items[a], at?_eq_some_iff.2 ⟨a, rfl, List.getElem?_eq_getElem ha⟩⟩
  clear hperm
  induction targets with
  | nil => exact ⟨[], .nil⟩
  | cons target targets ih =>
    obtain ⟨x, hx⟩ := hread target (.head _)
    obtain ⟨arranged, harranged⟩ := ih fun other hother => hread other (.tail _ hother)
    exact ⟨x :: arranged, .cons hx harranged⟩

/-- A permutation counts to an item at each of its places. -/
theorem le_length (h : Gathers targets items arranged) (hperm : targets.Perm (places n)) :
    n ≤ items.length := by
  by_contra hlt
  -- the first place that has no item is the target of some entry
  obtain ⟨j, hj, -⟩ := existsUnique_target hperm (Nat.lt_of_not_le hlt)
  have hitem := h.getElem?_eq hj
  rw [List.getElem?_eq_none (Nat.le_refl _), List.getElem?_eq_none_iff, h.length_eq] at hitem
  exact Nat.not_lt.2 hitem (List.getElem?_eq_some_iff.1 hj).1

/-- What a permutation gathers is a permutation of the items. -/
theorem perm (h : Gathers targets items arranged) (hperm : targets.Perm (places n))
    (hle : items.length ≤ n) : arranged.Perm items := by
  have hn : items.length = n := Nat.le_antisymm hle (h.le_length hperm)
  have hread : targets.map (at? items) = arranged.map some :=
    List.forall₂_eq_eq_eq ▸ List.forall₂_map_left_iff.2 (List.forall₂_map_right_iff.2 h)
  have hall : (places n).map (at? items) = items.map some := by
    refine List.ext_getElem? fun a => ?_
    by_cases ha : a < n
    · simp [places, ha, at?_natCast, List.getElem?_eq_getElem (hn ▸ ha)]
    · simp [places, ha, List.getElem?_eq_none (hn ▸ Nat.not_lt.1 ha)]
  have hsome := hperm.map (at? items)
  rw [hread, hall] at hsome
  exact (List.map_perm_map_iff fun _ _ => Option.some.inj).1 hsome

/-- What holds between the items that a permutation gathers holds between all items. -/
theorem rel_of_perm {R : α → β → Prop} {items' arranged' : List β} (h : Gathers targets items arranged)
    (h' : Gathers targets items' arranged') (hperm : targets.Perm (places n))
    (hlen : items.length = n) (hlen' : items'.length = n) (hR : List.Forall₂ R arranged arranged') :
    List.Forall₂ R items items' := by
  refine List.forall₂_iff_get.2 ⟨hlen.trans hlen'.symm, fun a ha ha' => ?_⟩
  -- entry `a` of the lists is entry `j` of what is gathered, for the `j` with `targets[j] = a`
  obtain ⟨j, hj, -⟩ := existsUnique_target hperm (hlen ▸ ha)
  have hx := h.getElem?_eq hj
  have hy := h'.getElem?_eq hj
  rw [List.getElem?_eq_getElem ha] at hx
  rw [List.getElem?_eq_getElem ha'] at hy
  obtain ⟨hjx, hx⟩ := List.getElem?_eq_some_iff.1 hx
  obtain ⟨hjy, hy⟩ := List.getElem?_eq_some_iff.1 hy
  have hxy := (List.forall₂_iff_get.1 hR).2 j hjx hjy
  rwa [List.get_eq_getElem, List.get_eq_getElem, hx, hy] at hxy

/-- A list is determined by what a permutation gathers from it. -/
theorem eq_of_perm {items' : List α} (h : Gathers targets items arranged)
    (h' : Gathers targets items' arranged) (hperm : targets.Perm (places n))
    (hlen : items.length = n) (hlen' : items'.length = n) : items = items' :=
  List.forall₂_eq_eq_eq ▸ h.rel_of_perm h' hperm hlen hlen' (List.forall₂_refl arranged)

end Gathers

theorem ints?_ofInts (targets : List Int) : ints? (ofInts targets) = some targets :=
  mapM_eq_some.2 (List.forall₂_map_left_iff.2 (List.forall₂_same.2 fun _ _ => rfl))

/-- Arranging gathers the items that the places count to. -/
theorem arrange?_eq_some_iff {values : Shape} {targets : List Int} {items arranged : List α}
    (hints : ints? values = some targets) :
    arrange? values items = some arranged ↔ Gathers targets items arranged := by
  have hvalues := mapM_eq_some.1 hints
  rw [arrange?, mapM_eq_some, Gathers]
  clear hints
  induction hvalues generalizing arranged with
  | nil => simp
  | cons hp _ ih => simp only [List.forall₂_cons_left_iff, hp, Option.bind_some, ih]

/-- An index that is arranged has no other elements. -/
theorem arrange?_subset {values : Shape} {items arranged : List α}
    (h : arrange? values items = some arranged) : arranged ⊆ items := by
  intro x hx
  obtain ⟨value, -, hvalue⟩ := exists_of_mem_right (mapM_eq_some.1 h) hx
  obtain ⟨target, -, htarget⟩ := Option.bind_eq_some_iff.1 hvalue
  exact mem_of_at? htarget

end Shape

namespace Tensor

open Shape

/-- The lengths of axes of which axis `j` became axis `p[j]`. -/
def permutedLengths (p shape : List Int) : List Int :=
  (places shape.length).map fun a => shape.getD (p.idxOf a) 0

/-- The index before the axes were moved: entry `j` is the entry that `p[j]` counts to. -/
def unpermute (p x : List Int) : Option (List Int) := p.mapM (Shape.at? x)

@[simp] theorem length_permutedLengths (p shape : List Int) :
    (permutedLengths p shape).length = shape.length := by simp [permutedLengths]

theorem permutedLengths_gathers {p shape : List Int} (hp : p.Perm (places shape.length)) :
    Gathers p (permutedLengths p shape) shape := by
  have hlen : p.length = shape.length := by rw [hp.length_eq, length_places]
  refine List.forall₂_iff_get.2 ⟨hlen, fun j hj hjs => ?_⟩
  obtain ⟨a, ha, hpa⟩ := mem_places.1 (hp.mem_iff.1 (List.getElem_mem hj))
  have hidx : p.idxOf p[j] = j := (hp.nodup_iff.2 (nodup_places _)).idxOf_getElem j hj
  refine at?_eq_some_iff.2 ⟨a, hpa, ?_⟩
  rw [hpa] at hidx
  simp [permutedLengths, places, ha, hidx, List.getElem?_eq_getElem hjs]

theorem unpermute_eq_some_iff {p x y : List Int} : unpermute p x = some y ↔ Gathers p x y :=
  mapM_eq_some

theorem unpermute_inRange {p x y shape : List Int} (hp : p.Perm (places shape.length))
    (hx : x.length = shape.length) (hy : unpermute p x = some y) (h : InRange y shape) :
    InRange x (permutedLengths p shape) :=
  (unpermute_eq_some_iff.1 hy).rel_of_perm (permutedLengths_gathers hp) hp hx
    (length_permutedLengths p shape) h

end Tensor

/-! ## Moving axes -/

namespace Shape

open Tensor

variable {α β : Type}

theorem fill?_eq_some_iff {slots slots' : List (Option α)} {target : Int} {a : α} :
    fill? slots target a = some slots' ↔ 0 ≤ target ∧ slots[target.toNat]? = some none ∧
      slots' = slots.set target.toNat (some a) := by
  unfold fill?
  split
  · next hneg =>
    constructor
    · rintro ⟨⟩
    · rintro ⟨hnn, -⟩
      omega
  · next hnn =>
    split
    · next hslot => simp [hslot, Int.not_lt.1 hnn, eq_comm]
    · next hslot =>
      constructor
      · rintro ⟨⟩
      · rintro ⟨-, hnone, -⟩
        exact (hslot hnone).elim

/-- The slots after all items are put: items stand where they were sent, each in a slot of its own,
and the other slots are as they were. -/
theorem fillAll?_eq_some : ∀ {items : List (Int × α)} {slots slots' : List (Option α)},
    fillAll? slots items = some slots' → slots'.length = slots.length ∧
      (items.map Prod.fst).Nodup ∧
      (∀ p ∈ items, 0 ≤ p.1 ∧ slots[p.1.toNat]? = some none ∧
        slots'[p.1.toNat]? = some (some p.2)) ∧
      ∀ a, (∀ p ∈ items, p.1.toNat ≠ a) → slots'[a]? = slots[a]?
  | [], slots, slots', h => by
    cases h
    simp
  | (target, x) :: items, slots, slots', h => by
    obtain ⟨slots₁, h₁, h₂⟩ := Option.bind_eq_some_iff.1 h
    obtain ⟨hnn, hslot, rfl⟩ := fill?_eq_some_iff.1 h₁
    obtain ⟨hlen, hnodup, hitems, hother⟩ := fillAll?_eq_some h₂
    rw [List.length_set] at hlen
    -- the slot that was filled first is not empty for the later items
    have hne : ∀ p ∈ items, p.1.toNat ≠ target.toNat := by
      intro p hp he
      have := (hitems p hp).2.1
      rw [he, List.getElem?_set_self (List.getElem?_eq_some_iff.1 hslot).1] at this
      cases this
    refine ⟨hlen, ?_, ?_, ?_⟩
    · refine List.nodup_cons.2 ⟨fun hmem => ?_, hnodup⟩
      obtain ⟨p, hp, he⟩ := List.mem_map.1 hmem
      exact hne p hp (congrArg Int.toNat he)
    · intro p hp
      rcases List.mem_cons.1 hp with rfl | hp
      · refine ⟨hnn, hslot, ?_⟩
        rw [hother _ hne, List.getElem?_set_self (List.getElem?_eq_some_iff.1 hslot).1]
      · obtain ⟨hp₁, hp₂, hp₃⟩ := hitems p hp
        rw [List.getElem?_set_ne (hne p hp).symm] at hp₂
        exact ⟨hp₁, hp₂, hp₃⟩
    · intro a ha
      rw [hother a fun p hp => ha p (.tail _ hp), List.getElem?_set_ne (ha _ (.head _))]

/-- Items that are sent to different empty slots are all put. -/
theorem exists_fillAll? : ∀ {items : List (Int × α)} {slots : List (Option α)},
    (items.map Prod.fst).Nodup → (∀ p ∈ items, 0 ≤ p.1 ∧ slots[p.1.toNat]? = some none) →
      ∃ slots', fillAll? slots items = some slots'
  | [], slots, _, _ => ⟨slots, rfl⟩
  | (target, x) :: items, slots, hnodup, hempty => by
    obtain ⟨hfresh, hnodup⟩ := List.nodup_cons.1 hnodup
    obtain ⟨hnn, hslot⟩ := hempty _ (.head _)
    -- filling one slot leaves those of the later items empty
    have hempty' : ∀ p ∈ items, 0 ≤ p.1 ∧
        (slots.set target.toNat (some x))[p.1.toNat]? = some none := by
      intro p hp
      obtain ⟨hpnn, hpslot⟩ := hempty p (.tail _ hp)
      have hne : p.1 ≠ target := fun he => hfresh (List.mem_map.2 ⟨p, hp, he⟩)
      exact ⟨hpnn, by rw [List.getElem?_set_ne (by omega), hpslot]⟩
    obtain ⟨slots', h⟩ := exists_fillAll? hnodup hempty'
    exact ⟨slots', Option.bind_eq_some_iff.2 ⟨_, fill?_eq_some_iff.2 ⟨hnn, hslot, rfl⟩, h⟩⟩

/-- A list without gaps. -/
theorem map_some_filterMap {slots : List (Option α)} (h : ∀ slot ∈ slots, slot.isSome) :
    (slots.filterMap id).map some = slots := by
  rw [List.map_filterMap_some_eq_filter_map_isSome, List.map_id, List.filter_eq_self.2 h]

/-- Each item has a slot, and each slot has an item. -/
theorem fillAll?_full {targets : List Int} {items : List α} {slots : List (Option α)}
    (hlen : targets.length = items.length)
    (h : fillAll? (List.replicate items.length none) (targets.zip items) = some slots) :
    targets.Perm (places items.length) ∧ slots.length = items.length ∧
      Gathers targets slots (items.map some) ∧ ∀ slot ∈ slots, slot.isSome := by
  obtain ⟨hslots, hnodup, hitems, -⟩ := fillAll?_eq_some h
  rw [List.length_replicate] at hslots
  rw [List.map_fst_zip (Nat.le_of_eq hlen)] at hnodup
  have hgathers : Gathers targets slots (items.map some) := by
    refine List.forall₂_map_right_iff.2 (List.forall₂_iff_zip.2 ⟨hlen, fun {target x} hmem => ?_⟩)
    obtain ⟨hnn, -, hslot⟩ := hitems _ hmem
    exact at?_eq_some_iff.2 ⟨target.toNat, (Int.toNat_of_nonneg hnn).symm, hslot⟩
  have hperm : targets.Perm (places items.length) := by
    refine perm_places hnodup (fun target htarget => ?_) hlen
    obtain ⟨j, hj, rfl⟩ := List.mem_iff_getElem.1 htarget
    obtain ⟨a, ha, hslot⟩ := at?_eq_some_iff.1
      ((List.forall₂_iff_get.1 hgathers).2 j hj (by rwa [List.length_map, ← hlen]))
    exact mem_places.2 ⟨a, hslots ▸ (List.getElem?_eq_some_iff.1 hslot).1, ha⟩
  refine ⟨hperm, hslots, hgathers, fun slot hslot => ?_⟩
  obtain ⟨x, -, rfl⟩ := List.mem_map.1
    ((hgathers.perm hperm (Nat.le_of_eq hslots)).mem_iff.2 hslot)
  rfl

/-- The items are gathered again from where they are placed. -/
theorem gathers_of_place? {targets : List Int} {items placed : List α}
    (hlen : targets.length = items.length) (h : place? targets items = some placed) :
    targets.Perm (places items.length) ∧ placed.length = items.length ∧
      Gathers targets placed items := by
  obtain ⟨slots, hslots, hp⟩ := Option.bind_eq_some_iff.1 h
  cases hp
  obtain ⟨hperm, hslen, hgathers, hfull⟩ := fillAll?_full hlen hslots
  have hmap := map_some_filterMap hfull
  refine ⟨hperm, by rw [← hslen, ← congrArg List.length hmap, List.length_map], ?_⟩
  rw [← hmap] at hgathers
  refine List.Forall₂.imp (fun target x hx => ?_) (List.forall₂_map_right_iff.1 hgathers)
  rw [at?_map, Option.map_eq_some_iff] at hx
  obtain ⟨y, hy, hyx⟩ := hx
  rw [hy, Option.some.inj hyx]

/-- A permutation of the places sends each item to a slot of its own. -/
theorem exists_place? {targets : List Int} {items : List α} (hlen : targets.length = items.length)
    (hperm : targets.Perm (places items.length)) : ∃ placed, place? targets items = some placed := by
  have hput : ∃ slots, fillAll? (List.replicate items.length none) (targets.zip items) = some slots := by
    refine exists_fillAll? ?_ fun p hp => ?_
    · rw [List.map_fst_zip (Nat.le_of_eq hlen)]
      exact hperm.nodup_iff.2 (nodup_places _)
    · obtain ⟨a, ha, hpa⟩ := mem_places.1 (hperm.mem_iff.1 (List.of_mem_zip hp).1)
      rw [hpa, Int.toNat_natCast, List.getElem?_replicate, if_pos ha]
      exact ⟨Int.natCast_nonneg a, rfl⟩
  obtain ⟨slots, hslots⟩ := hput
  exact ⟨_, Option.bind_eq_some_iff.2 ⟨slots, hslots, rfl⟩⟩

/-- **Placing is gathering undone**: it succeeds exactly for permutations of the places, and the items
are gathered again from its result. -/
theorem place?_eq_some_iff {targets : List Int} {items placed : List α}
    (hlen : targets.length = items.length) : place? targets items = some placed ↔
      targets.Perm (places items.length) ∧ placed.length = items.length ∧
        Gathers targets placed items := by
  refine ⟨gathers_of_place? hlen, fun ⟨hperm, hplen, hgathers⟩ => ?_⟩
  obtain ⟨placed', hrun⟩ := exists_place? hlen hperm
  obtain ⟨-, hplen', hgathers'⟩ := gathers_of_place? hlen hrun
  rw [hrun, hgathers'.eq_of_perm hgathers hperm hplen' hplen]

/-- A target that is no place, and one that is named twice. -/
example : place? [0, 2, -1] ['a', 'b', 'c'] = none ∧ place? [1, 1, 0] ['a', 'b', 'c'] = none := by
  decide

/-- Moving axes does not look at their lengths. -/
theorem place?_map (f : α → β) {targets : List Int} {items placed : List α}
    (hlen : targets.length = items.length) (h : place? targets items = some placed) :
    place? targets (items.map f) = some (placed.map f) := by
  obtain ⟨hperm, hplen, hgathers⟩ := gathers_of_place? hlen h
  refine (place?_eq_some_iff (by rw [List.length_map, hlen])).2 ⟨?_, ?_, hgathers.map f⟩
  · rwa [List.length_map]
  · rw [List.length_map, List.length_map, hplen]

/-- Nothing but items is placed. -/
theorem subset_of_place? {targets : List Int} {items placed : List α}
    (hlen : targets.length = items.length) (h : place? targets items = some placed) :
    placed ⊆ items := by
  obtain ⟨hperm, hplen, hgathers⟩ := gathers_of_place? hlen h
  exact (hgathers.perm hperm (Nat.le_of_eq hplen)).symm.subset

/-- Lengths are moved as tensors move their axes. -/
theorem place?_eq_permutedLengths {targets shape placed : List Int}
    (hlen : targets.length = shape.length) (h : place? targets shape = some placed) :
    placed = permutedLengths targets shape := by
  obtain ⟨hperm, hplen, hgathers⟩ := gathers_of_place? hlen h
  refine hgathers.eq_of_perm (permutedLengths_gathers hperm) hperm hplen (length_permutedLengths _ _)

end Shape

end PsiCalculus
