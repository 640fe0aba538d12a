import PsiCalculus.Proofs.Traversal

/-!
# Editing a node

Selecting a node of a tree and replacing it obey the laws of a lens, at every path. So do selecting
and setting one field of a node, its shape or its payload: this is replacing the node by itself with
another field.

* `Expr.Replaced n p e e'`: the tree `e'` is `e` with `n` at the path `p`. It follows the path, one
  constructor for its end and one for each node on the way, and the laws are inductions on it:
  `Replaced.selectFrom` (what was put is selected), `Replaced.eq_self` (putting what is selected changes
  nothing), `Replaced.again` (the second of two replacements wins), `Replaced.apart` and
  `Replaced.comm` (paths that part do not interfere), `Replaced.head` (nodes outside are kept).
* `NodeField`: a part of a node that can be read and set. `Context.Edits c field edit` collects the laws
  of an operation that edits a field, and `NodeField.Edited.edits` proves them for every field at once.
* `Context.edit_laws`: the laws of the three operations on well-formed contexts.
-/

namespace PsiCalculus

/-- Neither of the paths goes on where the other ends. -/
def Path.Apart (p q : Path) : Prop := ¬ p <+: q ∧ ¬ q <+: p

instance Path.Apart.decidable (p q : Path) : Decidable (p.Apart q) :=
  inferInstanceAs (Decidable (¬ p <+: q ∧ ¬ q <+: p))

theorem Path.Apart.symm {p q : Path} (h : p.Apart q) : q.Apart p := And.symm h

theorem Path.apart_cons {i j : Nat} {p q : Path} :
    Path.Apart (i :: p) (j :: q) ↔ (i = j → p.Apart q) := by
  by_cases h : i = j <;> simp [Path.Apart, h, eq_comm]

namespace Expr

/-! ## Selecting -/

section
variable {e m n sub : Expr} {p q : Path}

/-- The path and the depth only go into the message of a failure. -/
theorem selectFrom_ok {path path' : Path} {depth depth' : Nat} {rest : Path}
    (h : selectFrom path depth e rest = .ok sub) : selectFrom path' depth' e rest = .ok sub := by
  induction rest generalizing e depth depth' with
  | nil => exact h
  | cons i rest ih =>
    rw [selectFrom] at h ⊢
    split at h
    · exact ih h
    · cases h

theorem select_cons {i : Nat} {rest : Path} : e.select (i :: rest) = .ok sub ↔
    ∃ child, e.children[i]? = some child ∧ child.select rest = .ok sub := by
  unfold select
  constructor
  · intro h
    rw [selectFrom] at h
    split at h
    · next child hchild => exact ⟨child, hchild, selectFrom_ok h⟩
    · cases h
  · rintro ⟨child, hchild, h⟩
    rw [selectFrom_cons hchild]
    exact selectFrom_ok h

/-- A path that goes on selects in what its first part selects. -/
theorem selectFrom_append {path : Path} {depth : Nat} (h : e.selectFrom path depth p = .ok m) :
    e.selectFrom path depth (p ++ q) = m.selectFrom path (depth + p.length) q := by
  induction p generalizing e depth with
  | nil =>
    cases h
    rfl
  | cons i p ih =>
    rw [Expr.selectFrom] at h
    split at h
    · next child hchild =>
      rw [List.cons_append, selectFrom_cons hchild, ih h, List.length_cons, Nat.add_right_comm,
        Nat.add_assoc]
    · cases h

/-- A path that can be selected can be selected up to any place of it. -/
theorem exists_selectFrom_of_append {path : Path} {depth : Nat}
    (h : e.selectFrom path depth (p ++ q) = .ok n) : ∃ m, e.selectFrom path depth p = .ok m := by
  induction p generalizing e depth with
  | nil => exact ⟨e, rfl⟩
  | cons i p ih =>
    rw [List.cons_append, Expr.selectFrom] at h
    split at h
    · next child hchild =>
      rw [selectFrom_cons hchild]
      exact ih h
    · cases h

/-- A path selects what its second part selects in what its first part selects. -/
theorem select_append_ok :
    e.select (p ++ q) = .ok n ↔ ∃ m, e.select p = .ok m ∧ m.select q = .ok n := by
  constructor
  · intro h
    obtain ⟨m, hm⟩ := exists_selectFrom_of_append h
    rw [select, selectFrom_append hm] at h
    exact ⟨m, selectFrom_ok hm, selectFrom_ok h⟩
  · rintro ⟨m, hm, hn⟩
    rw [select, selectFrom_append (selectFrom_ok hm)]
    exact selectFrom_ok hn

end

/-! ## Replacing -/

/-- A node without its operands, and how many these are. -/
structure Head where
  op : Operator
  shape : Option Shape
  payload : Payload
  operands : Nat

/-- What a node is apart from its operands. -/
def head (e : Expr) : Head := ⟨e.op, e.shape, e.payload, e.children.length⟩

theorem head_withShape : ∀ (e : Expr) (shape : Option Shape),
    (e.withShape shape).head = { e.head with shape }
  | .node _ _ _ _, _ => rfl

theorem head_withPayload : ∀ (e : Expr) (payload : Payload),
    (e.withPayload payload).head = { e.head with payload }
  | .node _ _ _ _, _ => rfl

theorem head_withChildren : ∀ (e : Expr) (children : List Expr),
    (e.withChildren children).head = { e.head with operands := children.length }
  | .node _ _ _ _, _ => rfl

theorem children_withChildren : ∀ (e : Expr) (children : List Expr),
    (e.withChildren children).children = children
  | .node _ _ _ _, _ => rfl

/-- The tree `e'` is `e` with `n` at the path. -/
inductive Replaced (n : Expr) : Path → Expr → Expr → Prop
  | root {e : Expr} : Replaced n [] e n
  | operand {op : Operator} {shape : Option Shape} {payload : Payload} {children : List Expr} {i : Nat}
      {p : Path} {child child' : Expr} : children[i]? = some child →
      op.arity.accepts children.length = true → Replaced n p child child' →
      Replaced n (i :: p) (.node op shape payload children)
        (.node op shape payload (children.set i child'))

section
variable {n m e e' e₁ e₂ : Expr} {p q : Path}

theorem replace_ok : e.replace p n = .ok e' ↔ Replaced n p e e' := by
  induction p generalizing e e' with
  | nil =>
    rw [replace_nil]
    constructor
    · rintro ⟨⟩
      exact .root
    · rintro ⟨⟩
      rfl
  | cons i p ih =>
    obtain ⟨op, shape, payload, children⟩ := e
    rw [replace, children_node]
    constructor
    · intro h
      split at h
      · next child hchild =>
        obtain ⟨child', hreplaced, h⟩ := except_bind_ok.1 h
        unfold rebuild at h
        split at h
        · next haccepts =>
          rw [List.length_set] at haccepts
          cases h
          exact .operand hchild haccepts (ih.1 hreplaced)
        · cases h
      · cases h
    · rintro (_ | ⟨hchild, haccepts, hreplaced⟩)
      rw [hchild]
      refine except_bind_ok.2 ⟨_, ih.2 hreplaced, ?_⟩
      rw [rebuild, List.length_set, op_node, if_pos haccepts]
      rfl

theorem wellFormedAll_iff {es : List Expr} :
    wellFormedAll es = true ↔ ∀ e ∈ es, e.wellFormed = true := by
  induction es with
  | nil => simp [wellFormedAll]
  | cons e es ih => simp [wellFormedAll, ih]

/-- In a well-formed tree every node that can be selected can be replaced. -/
theorem exists_replaced (he : e.wellFormed = true) {path : Path} {depth : Nat}
    (h : e.selectFrom path depth p = .ok m) (n : Expr) : ∃ e', Replaced n p e e' := by
  induction p generalizing e depth with
  | nil => exact ⟨n, .root⟩
  | cons i p ih =>
    obtain ⟨op, shape, payload, children⟩ := e
    rw [wellFormed, Bool.and_eq_true, wellFormedAll_iff] at he
    rw [selectFrom, children_node] at h
    split at h
    · next child hchild =>
      obtain ⟨child', hreplaced⟩ := ih (he.2 child (List.mem_of_getElem? hchild)) h
      exact ⟨_, .operand hchild he.1 hreplaced⟩
    · cases h

/-- Why a node of a well-formed tree cannot be replaced does not depend on the replacement. -/
theorem replace_error (he : e.wellFormed = true) {x : Error} (h : e.replace p n = .error x) :
    e.replace p m = .error x := by
  induction p generalizing e with
  | nil =>
    rw [replace_nil] at h
    cases h
  | cons i p ih =>
    obtain ⟨op, shape, payload, children⟩ := e
    rw [wellFormed, Bool.and_eq_true, wellFormedAll_iff] at he
    rw [replace, children_node] at h ⊢
    cases hchild : children[i]? with
    | none => simpa [hchild] using h
    | some child =>
      simp only [hchild] at h ⊢
      cases hreplaced : child.replace p n with
      | error y =>
        rw [hreplaced] at h
        cases h
        rw [ih (he.2 child (List.mem_of_getElem? hchild)) hreplaced]
        rfl
      | ok child' =>
        rw [hreplaced] at h
        simp [bind, Except.bind, rebuild, he.1] at h

/-! ## Selecting after a replacement -/

/-- A path selects below another operand what it did before, and below the new one what it selects
there. -/
theorem selectFrom_set {op : Operator} {shape : Option Shape} {payload : Payload}
    {children : List Expr} {i : Nat} {child : Expr} (hchild : children[i]? = some child)
    (child' : Expr) (path : Path) (depth j : Nat) (q : Path) :
    (node op shape payload (children.set i child')).selectFrom path depth (j :: q) =
      if i = j then child'.selectFrom path (depth + 1) q
      else (node op shape payload children).selectFrom path depth (j :: q) := by
  rw [selectFrom, selectFrom, children_node, children_node, List.getElem?_set]
  have hi : i < children.length := (List.getElem?_eq_some_iff.1 hchild).1
  by_cases hij : i = j
  · subst hij
    simp [hi]
  · simp [hij]

/-- A node that is replaced was there. -/
theorem Replaced.exists_selectFrom (h : Replaced n p e e') (path : Path) (depth : Nat) :
    ∃ m, e.selectFrom path depth p = .ok m := by
  induction h generalizing depth with
  | root => exact ⟨_, rfl⟩
  | operand hchild _ _ ih =>
    obtain ⟨m, hm⟩ := ih (depth + 1)
    exact ⟨m, (selectFrom_cons hchild).trans hm⟩

/-- What was put at a path is selected there. -/
theorem Replaced.selectFrom (h : Replaced n p e e') (path : Path) (depth : Nat) :
    e'.selectFrom path depth p = .ok n := by
  induction h generalizing depth with
  | root => rfl
  | operand hchild _ _ ih => rw [selectFrom_set hchild, if_pos rfl, ih]

/-- Putting what is selected changes nothing. -/
theorem Replaced.eq_self (h : Replaced n p e e') {path : Path} {depth : Nat}
    (hn : e.selectFrom path depth p = .ok n) : e' = e := by
  induction h generalizing depth with
  | root => exact (Except.ok.inj hn).symm
  | operand hchild _ _ ih =>
    rw [ih ((selectFrom_cons hchild).symm.trans hn)]
    obtain ⟨hi, rfl⟩ := List.getElem?_eq_some_iff.1 hchild
    rw [List.set_getElem_self]

/-- The second of two replacements at a path wins. -/
theorem Replaced.again (h : Replaced n p e e₁) : Replaced m p e₁ e₂ ↔ Replaced m p e e₂ := by
  induction h generalizing e₂ with
  | root => exact ⟨fun h => by cases h; exact .root, fun h => by cases h; exact .root⟩
  | @operand op shape payload children i p child child' hchild haccepts _ ih =>
    have hi : i < children.length := (List.getElem?_eq_some_iff.1 hchild).1
    have hset : (children.set i child')[i]? = some child' := List.getElem?_set_self hi
    constructor
    · rintro (_ | ⟨hfirst, -, hsecond⟩)
      cases hset.symm.trans hfirst
      rw [List.set_set]
      exact .operand hchild haccepts (ih.1 hsecond)
    · rintro (_ | ⟨hfirst, -, hsecond⟩)
      cases hchild.symm.trans hfirst
      have hlast : Replaced m (i :: p) (.node op shape payload (children.set i child')) _ :=
        .operand hset (by rwa [List.length_set]) (ih.2 hsecond)
      rwa [List.set_set] at hlast

/-- A path apart from that of a replacement selects what it did before. -/
theorem Replaced.apart (h : Replaced n p e e') (hpq : p.Apart q) (path : Path) (depth : Nat) :
    e'.selectFrom path depth q = e.selectFrom path depth q := by
  induction h generalizing q depth with
  | root => exact absurd List.nil_prefix hpq.1
  | @operand op shape payload children i p child child' hchild _ _ ih =>
    cases q with
    | nil => exact absurd List.nil_prefix hpq.2
    | cons j q =>
      rw [selectFrom_set hchild]
      split
      · next hij =>
        subst hij
        rw [selectFrom_cons hchild, ih (Path.apart_cons.1 hpq rfl)]
      · rfl

/-- Replacements at paths that are apart commute. -/
theorem Replaced.comm (h : Replaced n p e e₁) (hpq : p.Apart q) (h' : Replaced m q e₁ e₂) :
    ∃ e₁', Replaced m q e e₁' ∧ Replaced n p e₁' e₂ := by
  induction h generalizing q e₂ with
  | root => exact absurd List.nil_prefix hpq.1
  | @operand op shape payload children i p child child' hchild haccepts hfirst ih =>
    cases h' with
    | root => exact absurd List.nil_prefix hpq.2
    | @operand _ _ _ _ j q other other' hother haccepts' hsecond =>
      by_cases hij : i = j
      · subst hij
        have hi : i < children.length := (List.getElem?_eq_some_iff.1 hchild).1
        cases (List.getElem?_set_self hi).symm.trans hother
        obtain ⟨mid, hmid, hlast⟩ := ih (Path.apart_cons.1 hpq rfl) hsecond
        have hback : Replaced n (i :: p) (.node op shape payload (children.set i mid)) _ :=
          .operand (List.getElem?_set_self hi) (by rwa [List.length_set]) hlast
        rw [List.set_set] at hback ⊢
        exact ⟨_, .operand hchild haccepts hmid, hback⟩
      · rw [List.getElem?_set_ne hij] at hother
        refine ⟨_, .operand hother haccepts hsecond, ?_⟩
        rw [List.set_comm _ _ hij]
        exact .operand (by rwa [List.getElem?_set_ne (Ne.symm hij)]) (by rwa [List.length_set]) hfirst

/-- Nodes outside the replaced subtree keep what they are apart from their operands. -/
theorem Replaced.head (h : Replaced n p e e') (hq : ¬ p <+: q) (path : Path) (depth : Nat) :
    Expr.head <$> e'.selectFrom path depth q = Expr.head <$> e.selectFrom path depth q := by
  induction h generalizing q depth with
  | root => exact absurd List.nil_prefix hq
  | @operand op shape payload children i p child child' hchild _ _ ih =>
    cases q with
    | nil => simp [Expr.selectFrom, Expr.head, Functor.map, Except.map]
    | cons j q =>
      rw [selectFrom_set hchild]
      split
      · next hij =>
        subst hij
        rw [selectFrom_cons hchild, ih fun hpq => hq (List.cons_prefix_cons.2 ⟨rfl, hpq⟩)]
      · rfl

end

end Expr

/-! ## Fields of a node -/

/-- A part of a node that can be read and set. -/
structure NodeField (α : Type) where
  get : Expr → α
  set : Expr → α → Expr

namespace NodeField

/-- The node with its operands. -/
def whole : NodeField Expr := ⟨id, fun _ n => n⟩

/-- The shape that is known of a node. -/
def shape : NodeField (Option Shape) := ⟨Expr.shape, Expr.withShape⟩

/-- The payload of a node. -/
def payload : NodeField Payload := ⟨Expr.payload, Expr.withPayload⟩

variable {α : Type}

/-- What is set is read, setting what is read changes nothing, and the second of two settings wins. -/
structure Lawful (f : NodeField α) : Prop where
  get_set : ∀ e a, f.get (f.set e a) = a
  set_get : ∀ e, f.set e (f.get e) = e
  set_set : ∀ e a b, f.set (f.set e a) b = f.set e b

theorem whole_lawful : whole.Lawful := ⟨fun _ _ => rfl, fun _ => rfl, fun _ _ _ => rfl⟩

theorem shape_lawful : shape.Lawful :=
  ⟨fun ⟨_, _, _, _⟩ _ => rfl, fun ⟨_, _, _, _⟩ => rfl, fun ⟨_, _, _, _⟩ _ _ => rfl⟩

theorem payload_lawful : payload.Lawful :=
  ⟨fun ⟨_, _, _, _⟩ _ => rfl, fun ⟨_, _, _, _⟩ => rfl, fun ⟨_, _, _, _⟩ _ _ => rfl⟩

/-- The operation replaces the node at a path by itself with another field, and whether and why it
fails on a well-formed tree does not depend on the field. -/
structure Edited (f : NodeField α) (edit : Context → Path → α → Except Error Context) : Prop where
  ok_iff : ∀ {c c' : Context} {p : Path} {a : α}, edit c p a = .ok c' ↔
    ∃ e, c.tree.select p = .ok e ∧ Expr.Replaced (f.set e a) p c.tree c'.tree ∧ c'.table = c.table
  error : ∀ {c : Context} {p : Path} {a : α} (b : α) {x : Error}, c.tree.wellFormed = true →
    edit c p a = .error x → edit c p b = .error x

end NodeField

namespace Context

/-- What the node at a path is apart from its operands. -/
def headAt (c : Context) (p : Path) : Except Error Expr.Head :=
  (fun d => d.tree.head) <$> c.select p

/-- The laws of an operation that edits a field of the node at a path of the context. -/
structure Edits {α : Type} (c : Context) (f : NodeField α)
    (edit : Context → Path → α → Except Error Context) : Prop where
  /-- The nodes that can be edited are those that can be selected. -/
  succeeds : ∀ p a, (∃ c', edit c p a = .ok c') ↔ ∃ d, c.select p = .ok d
  /-- What was put is read. -/
  reads : ∀ {p a c'}, edit c p a = .ok c' → ∃ d, c'.select p = .ok d ∧ f.get d.tree = a
  /-- Putting what is read changes nothing. -/
  restores : ∀ {p d}, c.select p = .ok d → edit c p (f.get d.tree) = .ok c
  /-- The second of two edits at a path wins. -/
  overwrites : ∀ p a b, (edit c p a >>= fun c' => edit c' p b) = edit c p b
  /-- A path that is apart selects what it did before. -/
  apart : ∀ {p q a c'}, p.Apart q → edit c p a = .ok c' → c'.select q = c.select q
  /-- Edits at paths that are apart commute. -/
  commutes : ∀ {p q a b}, p.Apart q → ∀ c', (edit c p a >>= fun c₁ => edit c₁ q b) = .ok c' ↔
    (edit c q b >>= fun c₁ => edit c₁ p a) = .ok c'
  table : ∀ {p a c'}, edit c p a = .ok c' → c'.table = c.table

theorem withTree_map_ok {c d : Context} {x : Except Error Expr} :
    c.withTree <$> x = .ok d ↔ x = .ok d.tree ∧ d.table = c.table := by
  obtain ⟨tree, table⟩ := d
  cases x <;> simp [Functor.map, Except.map, withTree, eq_comm]

theorem headAt_eq (c : Context) (p : Path) : c.headAt p = Expr.head <$> c.tree.select p := by
  rw [headAt, select]
  cases c.tree.select p <;> rfl

theorem select_ok {c d : Context} {path : Path} :
    c.select path = .ok d ↔ ∃ sub, c.tree.select path = .ok sub ∧ ⟨sub, c.table⟩ = d := Traversal.map_ok

end Context

open PsiCalculus.Expr

section
variable {α : Type} {f : NodeField α} {edit : Context → Path → α → Except Error Context}

theorem NodeField.Edited.commutes (hf : f.Edited edit) {c c' : Context} {p q : Path} {a b : α}
    (hpq : p.Apart q) (h : (edit c p a >>= fun c₁ => edit c₁ q b) = .ok c') :
    (edit c q b >>= fun c₁ => edit c₁ p a) = .ok c' := by
  obtain ⟨c₁, hfirst, hsecond⟩ := except_bind_ok.1 h
  obtain ⟨e, he, hfirst, htable⟩ := hf.ok_iff.1 hfirst
  obtain ⟨e', he', hsecond, htable'⟩ := hf.ok_iff.1 hsecond
  rw [Expr.select, hfirst.apart hpq] at he'
  obtain ⟨tree, hback, hforth⟩ := hfirst.comm hpq hsecond
  refine except_bind_ok.2 ⟨⟨tree, c.table⟩, hf.ok_iff.2 ⟨e', he', hback, rfl⟩,
    hf.ok_iff.2 ⟨e, ?_, hforth, htable'.trans htable⟩⟩
  rw [Expr.select, hback.apart hpq.symm]
  exact he

/-- **An operation that edits a lawful field obeys the laws** on well-formed contexts. -/
theorem NodeField.Edited.edits (hf : f.Edited edit) (hlawful : f.Lawful) {c : Context}
    (hc : c.tree.wellFormed = true) : c.Edits f edit where
  succeeds p a := by
    constructor
    · rintro ⟨c', h⟩
      obtain ⟨e, he, -⟩ := hf.ok_iff.1 h
      exact ⟨⟨e, c.table⟩, Context.select_ok.2 ⟨_, he, rfl⟩⟩
    · rintro ⟨d, h⟩
      obtain ⟨e, he, rfl⟩ := Context.select_ok.1 h
      obtain ⟨tree, hreplaced⟩ := exists_replaced hc he (f.set e a)
      exact ⟨⟨tree, c.table⟩, hf.ok_iff.2 ⟨_, he, hreplaced, rfl⟩⟩
  reads {p a c'} h := by
    obtain ⟨e, -, hreplaced, -⟩ := hf.ok_iff.1 h
    exact ⟨⟨f.set e a, c'.table⟩, Context.select_ok.2 ⟨_, hreplaced.selectFrom _ _, rfl⟩,
      hlawful.get_set e a⟩
  restores {p d} h := by
    obtain ⟨e, he, rfl⟩ := Context.select_ok.1 h
    obtain ⟨tree, hreplaced⟩ := exists_replaced hc he e
    obtain rfl := hreplaced.eq_self he
    exact hf.ok_iff.2 ⟨_, he, (hlawful.set_get e).symm ▸ hreplaced, rfl⟩
  overwrites p a b := by
    cases hfirst : edit c p a with
    | error x => exact (hf.error b hc hfirst).symm
    | ok c₁ =>
      change edit c₁ p b = edit c p b
      cases hsecond : edit c p b with
      | error x => cases (hf.error a hc hsecond).symm.trans hfirst
      | ok c₂ =>
        obtain ⟨e, he, hfirst, htable⟩ := hf.ok_iff.1 hfirst
        obtain ⟨e', he', hsecond, htable'⟩ := hf.ok_iff.1 hsecond
        cases he.symm.trans he'
        refine hf.ok_iff.2 ⟨f.set e a, hfirst.selectFrom _ _, ?_, htable'.trans htable.symm⟩
        rw [hlawful.set_set]
        exact hfirst.again.2 hsecond
  apart {p q a c'} hpq h := by
    obtain ⟨e, -, hreplaced, htable⟩ := hf.ok_iff.1 h
    rw [Context.select, Context.select, Expr.select, hreplaced.apart hpq, Expr.select]
    cases c.tree.selectFrom q 0 q with
    | error x => rfl
    | ok node => exact congrArg (fun t => Except.ok (Context.mk node t)) htable
  commutes hpq c' := ⟨hf.commutes hpq, hf.commutes hpq.symm⟩
  table h := (hf.ok_iff.1 h).choose_spec.2.2

/-- **Setting a field that leaves the operands touches no other field**, of the node and of all others:
below the node the operands are the old ones. -/
theorem NodeField.Edited.headAt (hf : f.Edited edit) (hset : ∀ e a, (f.set e a).children = e.children)
    {c c' : Context} {p : Path} {a : α} (h : edit c p a = .ok c') :
    (∃ d, c.select p = .ok d ∧ c'.headAt p = .ok (f.set d.tree a).head) ∧
      ∀ q, q ≠ p → c'.headAt q = c.headAt q := by
  obtain ⟨e, he, hreplaced, -⟩ := hf.ok_iff.1 h
  simp only [Context.headAt_eq]
  refine ⟨⟨⟨e, c.table⟩, Context.select_ok.2 ⟨_, he, rfl⟩, ?_⟩, fun q hq => ?_⟩
  · rw [Expr.select, hreplaced.selectFrom]
    rfl
  · by_cases hpq : p <+: q
    · obtain ⟨rest, rfl⟩ := hpq
      cases rest with
      | nil => exact absurd (List.append_nil p) hq
      | cons i rest =>
        rw [Expr.select, selectFrom_append (hreplaced.selectFrom _ _), Expr.select,
          selectFrom_append (selectFrom_ok he), Expr.selectFrom, Expr.selectFrom, hset]
    · exact hreplaced.head hpq _ _

end

/-! ## The three operations -/

namespace Context

theorem replace_edited : NodeField.whole.Edited replace where
  ok_iff {c c' p n} := by
    rw [replace, withTree_map_ok, replace_ok]
    constructor
    · rintro ⟨hreplaced, htable⟩
      obtain ⟨e, he⟩ := hreplaced.exists_selectFrom p 0
      exact ⟨e, he, hreplaced, htable⟩
    · rintro ⟨_, _, hreplaced, htable⟩
      exact ⟨hreplaced, htable⟩
  error {c p n} m x hc h := by
    rw [replace] at h ⊢
    cases hn : c.tree.replace p n with
    | error y =>
      rw [hn] at h
      cases h
      rw [replace_error hc hn]
      rfl
    | ok tree =>
      rw [hn] at h
      cases h

/-- Setting a field of the node at a path edits it. -/
theorem set_edited {α : Type} (f : NodeField α) :
    f.Edited fun c p a => c.tree.select p >>= fun node => c.replace p (f.set node a) where
  ok_iff {c c' p a} := by
    rw [except_bind_ok]
    refine exists_congr fun e => and_congr_right fun he => ?_
    rw [replace_edited.ok_iff]
    exact ⟨fun ⟨_, _, h⟩ => h, fun h => ⟨e, he, h⟩⟩
  error {c p a} b x hc h := by
    cases he : c.tree.select p with
    | error y => simpa [he, bind, Except.bind] using h
    | ok e =>
      rw [he] at h
      exact replace_edited.error _ hc h

/-- **Selecting and editing obey the laws of a lens** on well-formed contexts: replacing the node at a
path, setting its shape, and setting its payload. Selecting along a path is selecting along its two
parts. No edit touches the table; replacing a node keeps all nodes outside the replaced subtree, and
setting a field keeps the operands and the other fields of the node, and all other nodes. -/
theorem edit_laws {c : Context} (hc : c.tree.wellFormed = true) :
    c.Edits .whole replace ∧ c.Edits .shape replaceShape ∧ c.Edits .payload replacePayload ∧
    (∀ p q d, c.select (p ++ q) = .ok d ↔ ∃ m, c.select p = .ok m ∧ m.select q = .ok d) ∧
    (∀ p q n c', c.replace p n = .ok c' → ¬ p <+: q → c'.headAt q = c.headAt q) ∧
    (∀ p shape c', c.replaceShape p shape = .ok c' →
      (∃ d, c.select p = .ok d ∧ c'.headAt p = .ok { d.tree.head with shape }) ∧
      ∀ q, q ≠ p → c'.headAt q = c.headAt q) ∧
    (∀ p payload c', c.replacePayload p payload = .ok c' →
      (∃ d, c.select p = .ok d ∧ c'.headAt p = .ok { d.tree.head with payload }) ∧
      ∀ q, q ≠ p → c'.headAt q = c.headAt q) := by
  have hshape : NodeField.shape.Edited replaceShape := set_edited _
  have hpayload : NodeField.payload.Edited replacePayload := set_edited _
  refine ⟨replace_edited.edits NodeField.whole_lawful hc, hshape.edits NodeField.shape_lawful hc,
    hpayload.edits NodeField.payload_lawful hc, fun p q d => ?_, fun p q n c' h hpq => ?_,
    fun p shape c' h => ?_, fun p payload c' h => ?_⟩
  · simp only [select_ok, select_append_ok]
    constructor
    · rintro ⟨sub, ⟨m, hm, hsub⟩, rfl⟩
      exact ⟨_, ⟨m, hm, rfl⟩, sub, hsub, rfl⟩
    · rintro ⟨_, ⟨m, hm, rfl⟩, sub, hsub, rfl⟩
      exact ⟨sub, ⟨m, hm, hsub⟩, rfl⟩
  · obtain ⟨_, _, hreplaced, _⟩ := replace_edited.ok_iff.1 h
    rw [headAt_eq, headAt_eq]
    exact hreplaced.head hpq _ _
  · obtain ⟨⟨d, hd, hhead⟩, hothers⟩ := hshape.headAt (fun ⟨_, _, _, _⟩ _ => rfl) h
    exact ⟨⟨d, hd, hhead.trans (congrArg _ (head_withShape _ _))⟩, hothers⟩
  · obtain ⟨⟨d, hd, hhead⟩, hothers⟩ := hpayload.headAt (fun ⟨_, _, _, _⟩ _ => rfl) h
    exact ⟨⟨d, hd, hhead.trans (congrArg _ (head_withPayload _ _))⟩, hothers⟩

/-- Two edits of `tran (A + B)`: a leaf is replaced beside one whose shape is set. -/
theorem edit_laws_sum : ∃ c c₁ c₂ : Context, c.tree.wellFormed = true ∧
    c.replace [0, 1] (.array "C" none) = .ok c₁ ∧ c₁.replaceShape [0, 0] (some [.int 3]) = .ok c₂ ∧
    c₁.select [0, 0] = c.select [0, 0] ∧ c₁.headAt [0] = c.headAt [0] ∧
    (c.replaceShape [0, 0] none >>= fun c' => c'.replaceShape [0, 0] (some [.int 3])) =
      c.replaceShape [0, 0] (some [.int 3]) ∧ c₂.headAt [0, 1] = c₁.headAt [0, 1] := by
  let c : Context := ⟨.unary .transpose none (.binary (.arith .plus) none (.array "A" none)
    (.array "B" none)), ⟨[("A", .array none none), ("B", .array none none)], 0⟩⟩
  have hc : c.tree.wellFormed = true := by decide
  have hrun : (do
      let c₁ ← c.replace [0, 1] (.array "C" none)
      let c₂ ← c₁.replaceShape [0, 0] (some [.int 3])
      return (c₁.tree.wellFormed, c₂.tree.wellFormed)) = .ok (true, true) := by
    decide +kernel
  obtain ⟨c₁, h₁, hrun⟩ := except_bind_ok.1 hrun
  obtain ⟨c₂, h₂, hrun⟩ := except_bind_ok.1 hrun
  simp only [pure, Except.pure, Except.ok.injEq, Prod.mk.injEq] at hrun
  obtain ⟨hnode, hshape, -, -, houtside, -⟩ := edit_laws hc
  obtain ⟨-, -, -, -, -, hothers, -⟩ := edit_laws hrun.1
  refine ⟨c, c₁, c₂, hc, h₁, h₂, hnode.apart (by decide) h₁, houtside _ _ _ _ h₁ (by decide),
    hshape.overwrites _ _ _, (hothers _ _ _ h₂).2 _ (by decide)⟩

end Context

end PsiCalculus
