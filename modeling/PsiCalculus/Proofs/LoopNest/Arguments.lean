import PsiCalculus.LoopNest.Names
import PsiCalculus.Proofs.Scope

/-!
# The arguments of a function

Which names of a table in the course of a compilation a function takes: all arrays of the user, apart
from those that the shape of an array mentions (`mem_arguments`). The latter are read off an argument
(`Sizes.exists_argument`), so a scalar of the user is an argument or the length of an axis of one.
-/

namespace PsiCalculus

theorem mem_insertName {x name : String} {names : List String} :
    x ∈ insertName name names ↔ x = name ∨ x ∈ names := by
  fun_induction insertName name names with
  | case1 => simp
  | case2 => simp
  | case3 => simp
  | case4 first rest _ _ ih =>
    rw [List.mem_cons, ih, List.mem_cons]
    exact or_left_comm

theorem mem_sortedNames {x : String} {names : List String} : x ∈ sortedNames names ↔ x ∈ names := by
  induction names with
  | nil => rfl
  | cons name names ih =>
    rw [sortedNames, List.foldr_cons, mem_insertName, List.mem_cons]
    exact or_congr_right ih

theorem pairwise_insertName {name : String} {names : List String} (h : names.Pairwise (· < ·)) :
    (insertName name names).Pairwise (· < ·) := by
  fun_induction insertName name names with
  | case1 => exact List.pairwise_singleton _ _
  | case2 first rest hlt =>
    refine List.pairwise_cons.2 ⟨fun other hmem => ?_, h⟩
    rcases List.mem_cons.1 hmem with rfl | hmem
    · exact hlt
    · exact String.lt_trans hlt (List.rel_of_pairwise_cons h hmem)
  | case3 => exact h
  | case4 first rest hlt hne ih =>
    refine List.pairwise_cons.2 ⟨fun other hmem => ?_, ih h.of_cons⟩
    rcases mem_insertName.1 hmem with rfl | hmem
    · by_contra hge
      exact hne (String.le_antisymm (String.not_lt.1 hge) (String.not_lt.1 hlt))
    · exact List.rel_of_pairwise_cons h hmem

theorem pairwise_sortedNames (names : List String) : (sortedNames names).Pairwise (· < ·) := by
  induction names with
  | nil => exact .nil
  | cons name names ih => exact pairwise_insertName ih

namespace SymbolTable

variable {t : SymbolTable}

/-- The name is the length of an axis of an array of the user. -/
def Sizes (t : SymbolTable) (name : String) : Prop :=
  ∃ array shape, isGenerated array = false ∧ t.get? array = some (.array (some shape) none) ∧
    .named name ∈ shape

theorem Dimension.named_of_name {x : Element} (hx : t.Dimension x) {name : String}
    (hn : x.symbolName? = some name) : x = .named name ∧ isGenerated name = false ∧
      t.get? name = some (.array (some []) none) := by
  obtain ⟨n, rfl⟩ | ⟨other, rfl, hu, hs⟩ := hx
  · cases hn
  · cases hn
    exact ⟨rfl, hu, hs⟩

theorem mem_names_iff {shape : Shape} (hd : ∀ x ∈ shape, t.Dimension x) {name : String} :
    name ∈ Shape.names shape ↔ .named name ∈ shape := by
  constructor
  · intro hn
    obtain ⟨x, hx, hxn⟩ := List.mem_filterMap.1 hn
    exact ((hd x hx).named_of_name hxn).1 ▸ hx
  · intro hx
    exact List.mem_filterMap.2 ⟨_, hx, rfl⟩

/-- A name that sizes an array is a scalar. -/
theorem Sizes.scalar (ht : t.Sound) {name : String} (h : t.Sizes name) :
    t.get? name = some (.array (some []) none) := by
  obtain ⟨array, shape, -, hs, hmem⟩ := h
  exact ((ht.shape_element hs rfl _ hmem).named_of_name rfl).2.2

/-- The lengths of an array's axes are integers or sizes. -/
theorem Sound.int_or_sizes (ht : t.Sound) {array : String} {symbol : Symbol} {lengths : Shape}
    (hs : t.get? array = some symbol) (hl : symbol.shape = some lengths) {x : Element}
    (hx : x ∈ lengths) : (∃ n, x = .int n) ∨ ∃ name, x = .named name ∧ t.Sizes name := by
  obtain ⟨n, rfl⟩ | ⟨name, rfl, -⟩ := ht.shape_element hs hl x hx
  · exact .inl ⟨n, rfl⟩
  · cases ht.entry hs with
    | user hu =>
      cases hl
      exact .inr ⟨name, rfl, array, lengths, hu, hs, hx⟩
    | vector =>
      cases hl
      cases List.mem_singleton.1 hx
    | constant | index =>
      cases hl
      cases hx

theorem mem_sizing (ht : t.Sound) {name : String} :
    name ∈ t.entries.flatMap sizing ↔ t.Sizes name := by
  rw [List.mem_flatMap]
  constructor
  · rintro ⟨⟨array, symbol⟩, hmem, hn⟩
    have hs := get?_of_mem ht.nodup hmem
    cases ht.entry hs with
    | @user shape hu hd =>
      have hdeps : sizing (array, .array shape none) = Shape.names (shape.getD []) := by
        simp [sizing, Symbol.array, Symbol.dependencies, hu, Shape.names]
      rw [hdeps, mem_names_iff hd] at hn
      cases shape with
      | none => cases hn
      | some shape => exact ⟨array, shape, hu, hs, hn⟩
    | vector hg | constant hg | index hg => simp [sizing, hg] at hn
  · rintro ⟨array, shape, hu, hs, hmem⟩
    refine ⟨(array, _), mem_entries_of_get? hs, ?_⟩
    have hn := (mem_names_iff (ht.shape_element hs rfl)).2 hmem
    simp [sizing, Symbol.array, Symbol.dependencies, hu, hn]

theorem claims_user {array : String} (hu : isGenerated array = false) (shape : Option Shape) :
    t.claims (array, .array shape none) = .ok [array] := by
  simp [claims, Symbol.array, hu, isOpen]

theorem claims_vector {array : String} (hg : isGenerated array = true) (values : Shape) :
    t.claims (array, .literal values) =
      .ok ((Shape.names values).filter fun n => !t.isIndex n) := by
  simp [claims, Symbol.array, hg, isOpen, Shape.isSymbolic, Element.isSymbolic]

theorem claims_constant {array : String} (hg : isGenerated array = true) (n : Int) :
    t.claims (array, .array (some []) (some [.int n])) = .ok [] := by
  simp [claims, Symbol.array, hg, isOpen, Shape.isSymbolic, Shape.names, Element.symbolName?]

theorem claims_index (array : String) (bound : Element) :
    t.claims (array, .index bound) = .ok [] := by
  simp [claims, Symbol.index]

/-- The entries that make a name an argument are those of arrays of the user. -/
theorem mem_claims (ht : t.Sound) {array name : String} {symbol : Symbol} {names : List String}
    (hs : t.get? array = some symbol) (hclaims : t.claims (array, symbol) = .ok names)
    (hn : name ∈ names) :
    isGenerated name = false ∧ ∃ shape, t.get? name = some (.array shape none) := by
  cases ht.entry hs with
  | @user shape hu =>
    cases (claims_user hu shape).symm.trans hclaims
    cases List.mem_singleton.1 hn
    exact ⟨hu, shape, hs⟩
  | @vector values hg hv =>
    cases (claims_vector hg values).symm.trans hclaims
    obtain ⟨hmem, hi⟩ := List.mem_filter.1 hn
    obtain ⟨x, hx, hxn⟩ := List.mem_filterMap.1 hmem
    rcases hv x hx with hd | ⟨k, bound, rfl, hk⟩
    · obtain ⟨-, hu, hget⟩ := hd.named_of_name hxn
      exact ⟨hu, _, hget⟩
    · cases hxn
      rw [isIndex_iff.2 ⟨_, hk, rfl⟩] at hi
      cases hi
  | @constant n hg =>
    cases (claims_constant hg n).symm.trans hclaims
    cases hn
  | @index bound _ =>
    cases (claims_index array bound).symm.trans hclaims
    cases hn

/-- **Every table of a compilation has arguments.** -/
theorem Sound.arguments_run (ht : t.Sound) : ∃ arguments, t.arguments = .ok arguments := by
  have hclaims : ∀ entry ∈ t.entries, ∃ names, t.claims entry = .ok names := by
    rintro ⟨array, symbol⟩ hmem
    cases ht.entry (get?_of_mem ht.nodup hmem) with
    | user hu => exact ⟨_, claims_user hu _⟩
    | vector hg => exact ⟨_, claims_vector hg _⟩
    | constant hg => exact ⟨_, claims_constant hg _⟩
    | index => exact ⟨_, claims_index array _⟩
  obtain ⟨claimed, hclaimed⟩ := except_mapM_run hclaims
  exact ⟨_, except_bind_ok.2 ⟨claimed, hclaimed, rfl⟩⟩

/-- The arguments are in increasing order. -/
theorem pairwise_arguments {arguments : List String} (h : t.arguments = .ok arguments) :
    arguments.Pairwise (· < ·) := by
  obtain ⟨claimed, -, harguments⟩ := except_bind_ok.1 h
  cases harguments
  exact (pairwise_sortedNames _).filter _

theorem nodup_arguments {arguments : List String} (h : t.arguments = .ok arguments) :
    arguments.Nodup :=
  (pairwise_arguments h).nodup

/-- **The arguments** are the arrays of the user that size no array. -/
theorem mem_arguments (ht : t.Sound) {arguments : List String}
    (h : t.arguments = .ok arguments) {name : String} :
    name ∈ arguments ↔ (isGenerated name = false ∧ ∃ shape, t.get? name = some (.array shape none)) ∧
      ¬ t.Sizes name := by
  obtain ⟨claimed, hclaimed, harguments⟩ := except_bind_ok.1 h
  cases harguments
  have hclaimed := except_mapM_ok hclaimed
  rw [List.mem_filter, mem_sortedNames, decide_eq_true_eq, mem_sizing ht, List.mem_flatten]
  refine and_congr_left fun _ => ⟨?_, ?_⟩
  · rintro ⟨names, hnames, hn⟩
    obtain ⟨⟨array, symbol⟩, hmem, hclaims⟩ := exists_of_mem_right hclaimed hnames
    exact mem_claims ht (get?_of_mem ht.nodup hmem) hclaims hn
  · rintro ⟨hu, shape, hs⟩
    obtain ⟨names, hnames, hclaims⟩ := exists_of_mem_right hclaimed.flip (mem_entries_of_get? hs)
    cases (claims_user hu shape).symm.trans hclaims
    exact ⟨_, hnames, .head _⟩

/-- What sizes an array sizes an argument. -/
theorem Sizes.exists_argument (ht : t.Sound) {arguments : List String}
    (h : t.arguments = .ok arguments) {name : String} (hn : t.Sizes name) :
    ∃ array ∈ arguments, ∃ shape, t.get? array = some (.array (some shape) none) ∧
      .named name ∈ shape := by
  obtain ⟨array, shape, hu, hs, hmem⟩ := hn
  refine ⟨array, (mem_arguments ht h).2 ⟨⟨hu, _, hs⟩, fun hsizes => ?_⟩, shape, hs, hmem⟩
  -- an array that sizes another one is a scalar and has no axes
  cases hs.symm.trans (hsizes.scalar ht)
  cases hmem

theorem not_mem_arguments (ht : t.Sound) {arguments : List String}
    (h : t.arguments = .ok arguments) {name : String} (hn : t.Sizes name) : name ∉ arguments :=
  fun hmem => ((mem_arguments ht h).1 hmem).2 hn

end SymbolTable

end PsiCalculus
