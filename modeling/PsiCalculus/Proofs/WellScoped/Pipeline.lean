import PsiCalculus.Python
import PsiCalculus.Proofs.Grammar.Reprinting
import PsiCalculus.Proofs.WellScoped.Lowering
import PsiCalculus.Proofs.WellScoped.Reduction

/-!
# Scopes from source to text

A context that is read from a source is in scope (`Context.WellScoped.parse`), because the names in a
shape or in a literal are entered before the array that has them, and every stage keeps it so.

In an ordered table the value of a scalar stands before it (`Python.Calls.position_lt`). So the text of
an element, which is that of its value if it names a scalar of known value, is well defined: the
recursion ends (`Python.calls_wellFounded`), and it does before the steps of `Python.element` are used
up (`Python.element_eq`).
-/

namespace PsiCalculus

open SymbolTable

/-! ## Sources -/

namespace SymbolTable

variable {t t' : SymbolTable} {d : String × Option Shape}

theorem Ordered.insert_array {name : String} {shape : Option Shape} (ht : t.Ordered)
    (hs : ∀ x ∈ shape.getD [], t.Scalar x) (h : t.insert name (.array shape none) = .ok t') :
    t'.Ordered := by
  rcases insert_cases h with ⟨rfl, -⟩ | hadds
  · exact ht
  · exact ht.adds hadds (List.forall_mem_append.2 ⟨hs, by simp [Symbol.array]⟩)
      (by simp [Symbol.array])

theorem Ordered.enter (ht : t.Ordered) (hs : ∀ x ∈ d.2.getD [], t.Scalar x)
    (h : t.enter d = .ok t') : t'.Ordered := by
  obtain ⟨name, shape⟩ := d
  cases shape with
  | none =>
    rw [SymbolTable.enter] at h
    split at h
    · cases h
      exact ht
    · exact ht.insert_array hs h
  | some shape => exact ht.insert_array hs h

theorem enter_known (h : t.enter d = .ok t') : ∃ s, t'.get? d.1 = some s := by
  obtain ⟨name, shape⟩ := d
  cases shape with
  | none =>
    rw [enter] at h
    split at h
    · next hc =>
      cases h
      exact contains_iff.1 hc
    · exact ⟨_, get?_insert_self h⟩
  | some shape => exact ⟨_, enter_stated h⟩

theorem Ordered.enterAll (ds : Declarations) (ht : t.Ordered) (hds : ∀ d ∈ ds, d.2 = some [])
    (h : t.enterAll ds = .ok t') :
    t'.Ordered ∧ Extends t t' ∧ ∀ d ∈ ds, t'.Scalar (.named d.1) := by
  induction ds generalizing t with
  | nil =>
    cases h
    exact ⟨ht, .refl _, by simp⟩
  | cons d ds ih =>
    obtain ⟨name, shape⟩ := d
    obtain rfl : shape = some [] := hds _ (.head _)
    obtain ⟨t₁, h₁, h⟩ := except_bind_ok.1 h
    obtain ⟨ht', hg, hscalars⟩ := ih (ht.enter (by simp) h₁) (fun d hd => hds d (.tail _ hd)) h
    exact ⟨ht', (enter_grows h₁).trans hg, List.forall_mem_cons.2
      ⟨.named (hg.get? (enter_stated h₁)) rfl, hscalars⟩⟩

/-- Once its names are declared, a list of elements is one of scalars. -/
theorem Ordered.enterAll_elements {elements : Shape} (ht : t.Ordered)
    (he : ∀ x ∈ elements, x.Regular) (h : t.enterAll elements.declarations = .ok t') :
    t'.Ordered ∧ Extends t t' ∧ ∀ x ∈ elements, t'.Scalar x := by
  have hds : ∀ d ∈ elements.declarations, d.2 = some [] := by
    intro d hd
    obtain ⟨name, -, rfl⟩ := List.mem_map.1 hd
    rfl
  obtain ⟨ht', hg, hscalars⟩ := ht.enterAll _ hds h
  refine ⟨ht', hg, fun x hx => ?_⟩
  obtain ⟨n, rfl, -⟩ | ⟨name, rfl, -⟩ := he x hx
  · exact .int _ _
  · exact hscalars (name, some []) (List.mem_map_of_mem (List.mem_filterMap.2 ⟨_, hx, rfl⟩))

end SymbolTable

/-- A phrase that is built over an ordered table is in scope. -/
theorem Phrase.Regular.wellScoped {p : Phrase} (hp : p.Regular) {t t' : SymbolTable} {e : Expr}
    (ht : t.Ordered) (h : p.build t = .ok (e, t')) :
    e.InScope t' ∧ t'.Ordered ∧ Extends t t' := by
  induction p generalizing t t' e with
  | name n =>
    obtain ⟨t₁, h₁, h⟩ := except_bind_ok.1 h
    cases h
    obtain ⟨s, hs⟩ := enter_known h₁
    exact ⟨.array hs (by simp), ht.enter (by simp) h₁, enter_grows h₁⟩
  | declared n shape =>
    obtain ⟨t₁, h₁, h⟩ := except_bind_ok.1 h
    obtain ⟨t₂, h₂, h⟩ := except_bind_ok.1 h
    cases h
    -- the lengths are entered before the array that has them
    obtain ⟨ht₁, hg₁, hscalars⟩ := ht.enterAll_elements hp.2 h₁
    exact ⟨.array (enter_stated h₂) (by simp), ht₁.enter (d := (n, some shape)) hscalars h₂,
      hg₁.trans (enter_grows h₂)⟩
  | vector values =>
    obtain ⟨t₁, h₁, h⟩ := except_bind_ok.1 h
    obtain ⟨⟨n, t₂⟩, h₂, h⟩ := except_bind_ok.1 h
    cases h
    obtain ⟨ht₁, hg₁, hscalars⟩ := ht.enterAll_elements hp h₁
    have helements : ∀ x ∈ (Symbol.array (some [.int values.length]) (some values)).elements,
        t₁.Scalar x :=
      List.forall_mem_append.2 ⟨List.forall_mem_singleton.2 (.int _ _), hscalars⟩
    obtain ⟨ht₂, hg₂, hget⟩ := Grow.stays_fresh helements (by simp [Symbol.array]) t₁ t' n ht₁
      (.refl _) h₂
    exact ⟨.array hget (by simp), ht₂, hg₁.trans hg₂⟩
  | unary op p ih =>
    obtain ⟨⟨e₁, t₁⟩, h₁, h⟩ := except_bind_ok.1 h
    cases h
    obtain ⟨he, ht', hg⟩ := ih hp.2 ht h₁
    exact ⟨.unary (by simp) he, ht', hg⟩
  | binary op l r ihl ihr =>
    obtain ⟨⟨e₁, t₁⟩, h₁, h⟩ := except_bind_ok.1 h
    obtain ⟨⟨e₂, t₂⟩, h₂, h⟩ := except_bind_ok.1 h
    cases h
    obtain ⟨he₁, ht₁, hg₁⟩ := ihl hp.2.1 ht h₁
    obtain ⟨he₂, ht₂, hg₂⟩ := ihr hp.2.2 ht₁ h₂
    exact ⟨.binary (by simp) (he₁.mono hg₂) he₂, ht₂, hg₁.trans hg₂⟩

/-- **Sources have contexts in scope.** -/
theorem Context.WellScoped.parse {source : String} {c : Context} (h : Context.parse source = .ok c) :
    c.WellScoped := by
  obtain ⟨p, hp, hbuild⟩ := Context.exists_phrase h
  obtain ⟨htree, htable, -⟩ := hp.wellScoped .empty hbuild
  exact ⟨htree, htable⟩

/-! ## The text of an element -/

/-- How far into the table an element reaches: an integer does not, and a name up to its entry. -/
def SymbolTable.position (t : SymbolTable) (x : Element) : Nat :=
  match x.symbolName? with
  | none => 0
  | some name => t.names.idxOf name + 1

theorem SymbolTable.position_le (t : SymbolTable) (x : Element) : t.position x ≤ t.size + 1 := by
  unfold position
  split
  · exact Nat.zero_le _
  · have hle := List.idxOf_le_length (a := ‹String›) (l := t.names)
    rw [names, List.length_map] at hle
    exact Nat.succ_le_succ hle

theorem SymbolTable.ScalarAmong.position_le {t : SymbolTable} {before after : List (String × Symbol)}
    {x : Element} (h : ScalarAmong before x) (ht : t.entries = before ++ after) :
    t.position x ≤ before.length := by
  obtain ⟨n, rfl⟩ | ⟨name, s, rfl, hlookup, -⟩ := h
  · exact Nat.zero_le _
  · have hmem : name ∈ before.map Prod.fst := by
      obtain ⟨l₁, l₂, hl, -⟩ := List.lookup_eq_some_iff.1 hlookup
      simp [hl]
    show t.names.idxOf name + 1 ≤ _
    rw [names, ht, List.map_append, List.idxOf_append_of_mem hmem]
    have hlt := List.idxOf_lt_length_of_mem hmem
    rwa [List.length_map] at hlt

namespace Python

/-- The text of an element, given that of the value of the scalar that it names, if this is known. -/
def textBy (p : Python) (text : Element → String) : Element → String
  | .int n => toString n
  | .symbolic node =>
    match node.name? with
    | none => "?"
    | some name => ((p.scalarValue? name).map text).getD name

/-- The element names a scalar that has this value: its text is the text of the value. -/
def Calls (p : Python) (value x : Element) : Prop :=
  ∃ name, x.symbolName? = some name ∧ p.scalarValue? name = some value

variable {p : Python} {value x : Element}

theorem textBy_congr {text text' : Element → String}
    (h : ∀ value, p.Calls value x → text value = text' value) :
    p.textBy text x = p.textBy text' x := by
  cases x with
  | int n => rfl
  | symbolic node =>
    cases hname : node.name? with
    | none => simp [textBy, hname]
    | some name =>
      cases hvalue : p.scalarValue? name with
      | none => simp [textBy, hname, hvalue]
      | some value => simp [textBy, hname, hvalue, h value ⟨name, hname, hvalue⟩]

theorem elementWithin_succ (steps : Nat) (x : Element) :
    p.elementWithin (steps + 1) x = p.textBy (p.elementWithin steps) x := by
  cases x with
  | int n => rfl
  | symbolic node =>
    rw [elementWithin, textBy]
    cases node.name? with
    | none => rfl
    | some name =>
      dsimp only
      cases p.scalarValue? name <;> rfl

/-- The value of a scalar stands before it. -/
theorem Calls.position_lt (ht : p.table.Ordered) (h : p.Calls value x) :
    p.table.position value < p.table.position x := by
  obtain ⟨name, hname, hvalue⟩ := h
  unfold scalarValue? at hvalue
  split at hvalue
  · split at hvalue
    · next hget =>
      cases hvalue
      -- the entry of the scalar, which its value stands before
      obtain ⟨before, after, hsplit, hbefore⟩ := List.lookup_eq_some_iff.1 hget
      have hle := (ht.earlier hsplit value (by simp [Symbol.elements])).position_le hsplit
      have hnew : name ∉ before.map Prod.fst := by
        intro hmem
        obtain ⟨entry, hentry, rfl⟩ := List.mem_map.1 hmem
        simpa using hbefore entry hentry
      have hx : p.table.position x = before.length + 1 := by
        simp [SymbolTable.position, hname, names, hsplit, List.idxOf_append_of_notMem hnew]
      omega
    · cases hvalue
  · cases hvalue

/-- **The recursion ends**: no chain of scalars, each the value of the one before, goes on for ever. -/
theorem calls_wellFounded (ht : p.table.Ordered) : WellFounded p.Calls :=
  Subrelation.wf (fun h => h.position_lt ht) (measure p.table.position).wf

/-- More steps than an element reaches into the table make no difference. -/
theorem elementWithin_eq (ht : p.table.Ordered) (steps : Nat) (hx : p.table.position x ≤ steps) :
    p.elementWithin (steps + 1) x = p.elementWithin steps x := by
  induction steps generalizing x with
  | zero =>
    rw [elementWithin_succ]
    cases x with
    | int n => rfl
    | symbolic node =>
      cases hname : node.name? with
      | none => simp [textBy, elementWithin, hname]
      | some name => simp [SymbolTable.position, Element.symbolName?, hname] at hx
  | succ steps ih =>
    -- one step is spent, and the value reaches less far
    rw [elementWithin_succ, elementWithin_succ]
    exact textBy_congr fun value hcall =>
      ih (Nat.le_of_lt_succ (Nat.lt_of_lt_of_le (hcall.position_lt ht) hx))

/-- **The steps are enough**: the text of an element is that of the value of the scalar it names,
however far this goes on. -/
theorem element_eq (ht : p.table.Ordered) (x : Element) : p.element x = p.textBy p.element x := by
  rw [element, elementWithin_succ]
  refine textBy_congr fun value hcall => (elementWithin_eq ht _ ?_).symm
  exact Nat.le_of_lt_succ (Nat.lt_of_lt_of_le (hcall.position_lt ht) (p.table.position_le x))

end Python

/-! ## All stages -/

/-- **Every stage stays in scope.** In the contexts of a source, as far as there are any, the table has
all the names that the tree mentions, and its entries are about scalars that were entered before them.
Each stage only adds entries. So the text of an element can follow the values of scalars: this ends, and
`Python.element` does so to the end. -/
theorem Context.stages_wellScoped {source : String} {c : Context}
    (hc : Context.parse source = .ok c) :
    c.WellScoped ∧
    ∀ s, c.inferShapes = .ok s → s.WellScoped ∧ Extends c.table s.table ∧
    ∀ limit r, s.reduce limit = .ok r → r.WellScoped ∧ Extends s.table r.table ∧
    ∀ guards f, r.lower guards = .ok f → f.WellScoped ∧ Extends r.table f.table ∧
    ∀ literals, WellFounded (Python.Calls ⟨f.table, literals⟩) ∧
      ∀ x, Python.element ⟨f.table, literals⟩ x =
        Python.textBy ⟨f.table, literals⟩ (Python.element ⟨f.table, literals⟩) x := by
  have hwc := Context.WellScoped.parse hc
  refine ⟨hwc, fun s hs => ?_⟩
  obtain ⟨hws, hgs⟩ := hwc.inferShapes hs
  refine ⟨hws, hgs, fun limit r hr => ?_⟩
  obtain ⟨hwr, hgr⟩ := hws.reduce hr
  refine ⟨hwr, hgr, fun guards f hf => ?_⟩
  obtain ⟨hwf, hgf⟩ := hwr.lower hf
  exact ⟨hwf, hgf, fun literals =>
    ⟨Python.calls_wellFounded hwf.table, Python.element_eq hwf.table⟩⟩

/-- A sum with a row that is chosen at run time: every stage enters symbols. -/
theorem Context.stages_wellScoped_row : ∃ c s r f,
    Context.parse "(<n> psi A ^ <3 2>) + B ^ <m>" = .ok c ∧ c.WellScoped ∧
    c.inferShapes = .ok s ∧ s.WellScoped ∧ s.reduce 1000 = .ok r ∧ r.WellScoped ∧
    r.lower true = .ok f ∧ f.WellScoped ∧ c.table.size < s.table.size ∧
    s.table.size < r.table.size ∧ r.table.size < f.table.size ∧
    WellFounded (Python.Calls ⟨f.table, true⟩) := by
  have hrun : (do
      let c ← Context.parse "(<n> psi A ^ <3 2>) + B ^ <m>"
      let s ← c.inferShapes
      let r ← s.reduce 1000
      let f ← r.lower true
      return decide (c.table.size < s.table.size ∧ s.table.size < r.table.size ∧
        r.table.size < f.table.size)) = .ok true := by
    decide +kernel
  obtain ⟨c, hc, hrun⟩ := except_bind_ok.1 hrun
  obtain ⟨s, hs, hrun⟩ := except_bind_ok.1 hrun
  obtain ⟨r, hr, hrun⟩ := except_bind_ok.1 hrun
  obtain ⟨f, hf, hrun⟩ := except_bind_ok.1 hrun
  simp only [pure, Except.pure, Except.ok.injEq, decide_eq_true_eq] at hrun
  obtain ⟨hwc, hstages⟩ := Context.stages_wellScoped hc
  obtain ⟨hws, -, hstages⟩ := hstages s hs
  obtain ⟨hwr, -, hstages⟩ := hstages 1000 r hr
  obtain ⟨hwf, -, hstages⟩ := hstages true f hf
  exact ⟨c, s, r, f, hc, hwc, hs, hws, hr, hwr, hf, hwf, hrun.1, hrun.2.1, hrun.2.2,
    (hstages true).1⟩

end PsiCalculus
