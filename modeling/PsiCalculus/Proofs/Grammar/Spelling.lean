import PsiCalculus.Proofs.Grammar.Derivation
import PsiCalculus.Proofs.Source

/-!
# Phrases as text

`Phrase.source` writes a phrase with all its parentheses. The text is read back as tokens that are the
phrase and nothing else (`Phrase.spells`), if the names and numbers in it are such as sources hold
(`Phrase.Regular`): a phrase that was read is of this kind (`Derives.regular`).

`Lexes cs ts` says that the characters `cs` are the tokens `ts`. A text `Spells` tokens if it does so
before every text that ends a word (`Ends`); texts are put together from right to left.
-/

namespace PsiCalculus

open Token Grammar

/-! ## Texts -/

/-- An operator as a source has it. The two transposes are written alike. -/
def Operator.spelling : Operator → String
  | permute => transpose.label
  | op => op.label

/-- A phrase as a source has it, with parentheses around every operation. -/
def Phrase.source : Phrase → String
  | .name n => n
  | .declared n shape => n ++ " ^ " ++ shape.text
  | .vector values => values.text
  | .unary op operand => "(" ++ op.spelling ++ " " ++ operand.source ++ ")"
  | .binary op left right => "(" ++ left.source ++ " " ++ op.spelling ++ " " ++ right.source ++ ")"

/-! ## Regular phrases -/

/-- An integer that a source may hold, or a name. -/
def Element.Regular (e : Element) : Prop :=
  (∃ n : Nat, e = .int n ∧ n ≤ maxInteger) ∨ ∃ name, e = .named name ∧ IsWord name

/-- A phrase that can be written. -/
def Phrase.Regular : Phrase → Prop
  | .name n => IsWord n
  | .declared n shape => IsWord n ∧ ∀ e ∈ shape, e.Regular
  | .vector values => ∀ e ∈ values, e.Regular
  | .unary op operand => (∃ t, Leads t op) ∧ operand.Regular
  | .binary op left right => (∃ X o, Joins X o op) ∧ left.Regular ∧ right.Regular

theorem Grammar.Elements.regular {u : List Token} {values : Shape} (h : Elements u values)
    (hu : ∀ t ∈ u, t.Regular) : ∀ e ∈ values, e.Regular := by
  induction h with
  | nil => simp
  | integer n _ ih =>
    intro e he
    rcases List.mem_cons.1 he with rfl | he
    · exact .inl ⟨n, rfl, hu (.integer n) (.head _)⟩
    · exact ih (fun t ht => hu t (.tail _ ht)) e he
  | name n _ ih =>
    intro e he
    rcases List.mem_cons.1 he with rfl | he
    · exact .inr ⟨n, rfl, hu (.ident n) (.head _)⟩
    · exact ih (fun t ht => hu t (.tail _ ht)) e he

theorem Grammar.Derives.regular {extent : List Token → List Token → Prop} {X : Category}
    {u rest : List Token} {p : Phrase} (h : Derives extent X u rest p)
    (hu : ∀ t ∈ u, t.Regular) : p.Regular := by
  induction h with
  | lift _ _ ih => exact ih hu
  | join _ hop _ _ ihl ihr =>
    simp only [List.mem_append] at hu
    exact ⟨⟨_, _, hop⟩, ihl fun t ht => hu t (.inl ht), ihr fun t ht => hu t (.inr (.inr ht))⟩
  | leading ht _ _ ih => exact ⟨⟨_, ht⟩, ih fun t ht => hu t (.tail _ ht)⟩
  | paren _ ih => exact ih fun t ht => hu t (.tail _ (List.mem_append_left _ ht))
  | vector he => exact he.regular fun t ht => hu t (.tail _ (List.mem_append_left _ ht))
  | name n => exact hu (.ident n) (.head _)
  | declared n he =>
    exact ⟨hu (.ident n) (.head _), he.regular fun t ht =>
      hu t (.tail _ (.tail _ (.tail _ (List.mem_append_left _ ht))))⟩

/-! ## Characters and tokens -/

/-- The characters are the tokens, wherever they stand in a source. -/
def Lexes (cs : List Char) (ts : List Token) : Prop :=
  ∀ position, ∃ spanned, scanFrom position cs = .ok spanned ∧ spanned.map Spanned.token = ts

/-- A text that ends the word before it: it is empty, or starts with a blank or a closing bracket. -/
def Ends (rest : List Char) : Prop := ∀ c, rest.head? = some c → c = ' ' ∨ c = ')' ∨ c = '>'

/-- Before every text that ends a word the characters are the tokens. -/
def Spells (cs : List Char) (u : List Token) : Prop :=
  ∀ rest ts, Ends rest → Lexes rest ts → Lexes (cs ++ rest) (u ++ ts)

section
variable {c : Char} {cs rest : List Char} {t : Token} {ts u v : List Token} {n : Nat}

theorem Lexes.nil : Lexes [] [] := fun _ => ⟨[], by rw [scanFrom], rfl⟩

theorem Lexes.token (h : Lexeme.next c rest = (.token t, n)) (hrest : Lexes (rest.drop n) ts) :
    Lexes (c :: rest) (t :: ts) := by
  intro position
  obtain ⟨spanned, hscan, rfl⟩ := hrest (position + byteLength (c :: rest.take n))
  rw [scanFrom, h]
  simp only [hscan]
  exact ⟨_, rfl, rfl⟩

theorem scanFrom_gap (h : Lexeme.next c rest = (.gap, n)) (position : Nat) :
    scanFrom position (c :: rest) =
      scanFrom (position + byteLength (c :: rest.take n)) (rest.drop n) := by
  rw [scanFrom, h]

theorem isSpace_next (hc : isSpace c = true) (rest : List Char) :
    Lexeme.next c rest = (.gap, (rest.takeWhile isSpace).length) := by
  simp [Lexeme.next, hc]

/-- A blank more makes no difference. -/
theorem Lexes.space (h : Lexes rest ts) : Lexes (' ' :: rest) ts := by
  intro position
  obtain ⟨spanned, hscan, hts⟩ := h (position + ' '.utf8Size)
  refine ⟨spanned, ?_, hts⟩
  rw [← hscan, scanFrom_gap (isSpace_next rfl rest)]
  rcases rest with _ | ⟨d, rest⟩
  · rfl
  · by_cases hd : isSpace d = true
    · rw [scanFrom_gap (isSpace_next hd rest)]
      simp [hd, byteLength, Nat.add_assoc]
    · simp [hd, byteLength]

theorem Ends.not_identChar (h : Ends rest) : rest.takeWhile isIdentChar = [] := by
  rcases rest with _ | ⟨c, rest⟩
  · rfl
  · rcases h c rfl with rfl | rfl | rfl <;> rfl

theorem Ends.not_digit (h : Ends rest) : rest.takeWhile Text.isDigit = [] := by
  rcases rest with _ | ⟨c, rest⟩
  · rfl
  · rcases h c rfl with rfl | rfl | rfl <;> rfl

theorem isSpace_cases (h : isSpace c = true) : c = ' ' ∨ c = '\t' ∨ c = '\n' ∨ c = '\r' := by
  simpa [isSpace, or_assoc] using h

/-- What is neither a blank nor the start of a comment starts no gap. -/
theorem no_gap (p : Char → Bool) (hp : ∀ d ∈ [' ', '\t', '\n', '\r', '#'], p d = false)
    (hc : p c = true) : isSpace c = false ∧ c ≠ '#' := by
  have hne : ∀ d ∈ [' ', '\t', '\n', '\r', '#'], c ≠ d := by
    rintro d hd rfl
    rw [hp c hd] at hc
    cases hc
  refine ⟨?_, hne '#' (by decide)⟩
  rw [Bool.eq_false_iff]
  intro hs
  rcases isSpace_cases hs with rfl | rfl | rfl | rfl <;> exact hne _ (by decide) rfl

theorem isDigit_of_isLetter (hc : isLetter c = true) : Text.isDigit c = false := by
  simp only [isLetter, Bool.or_eq_true, Bool.and_eq_true, decide_eq_true_eq, Char.le_def,
    UInt32.le_iff_toNat_le] at hc
  simp only [Text.isDigit, Bool.and_eq_false_iff, decide_eq_false_iff_not, Char.le_def,
    UInt32.le_iff_toNat_le]
  simp at hc ⊢
  omega

theorem isLetter_next (hc : isLetter c = true) (rest : List Char) : Lexeme.next c rest =
    (.token (ofWord (String.ofList (c :: rest.takeWhile isIdentChar))),
      (rest.takeWhile isIdentChar).length) := by
  obtain ⟨hspace, hhash⟩ := no_gap isLetter (by simp [isLetter]) hc
  simp [Lexeme.next, hspace, hhash, isDigit_of_isLetter hc, hc]

theorem isDigit_next (hc : Text.isDigit c = true) (rest : List Char) : Lexeme.next c rest =
    (if Text.decimal (c :: rest.takeWhile Text.isDigit) ≤ maxInteger
      then .token (.integer (Text.decimal (c :: rest.takeWhile Text.isDigit))) else .stray,
      (rest.takeWhile Text.isDigit).length) := by
  obtain ⟨hspace, hhash⟩ := no_gap Text.isDigit (by simp [Text.isDigit]) hc
  simp [Lexeme.next, hspace, hhash, hc]

/-- A run of identifier characters is one word. -/
theorem Spells.word {text : String} (word : List Char) (htext : text.toList = c :: word)
    (hc : isLetter c = true) (hword : word.all isIdentChar = true) :
    Spells text.toList [ofWord text] := by
  intro rest ts hrest hts
  have htake : (word ++ rest).takeWhile isIdentChar = word := by
    rw [List.takeWhile_append_of_pos (List.all_eq_true.1 hword), hrest.not_identChar, List.append_nil]
  have hnext := isLetter_next hc (word ++ rest)
  rw [htake, ← htext, String.ofList_toList] at hnext
  rw [htext, List.cons_append, List.singleton_append]
  refine .token hnext ?_
  rwa [List.drop_left]

theorem IsWord.spells {name : String} (h : IsWord name) : Spells name.toList [.ident name] := by
  obtain ⟨⟨c, word, htext, hc, hword⟩, hof⟩ := h
  rw [← hof]
  exact .word _ htext hc (List.all_eq_true.2 hword)

theorem Spells.integer {n : Nat} (hn : n ≤ maxInteger) :
    Spells (toString n).toList [.integer n] := by
  intro rest ts hrest hts
  have hdigits : ∀ d ∈ Nat.toDigits 10 n, Text.isDigit d = true := fun _ => isDigit_of_mem_toDigits
  have hvalue := decimal_toDigits n
  rw [Nat.toString_eq_repr, Nat.toList_repr]
  cases h : Nat.toDigits 10 n with
  | nil => simp at h
  | cons c digits =>
    rw [h] at hdigits hvalue
    have htake : (digits ++ rest).takeWhile Text.isDigit = digits := by
      rw [List.takeWhile_append_of_pos fun d hd => hdigits d (.tail _ hd), hrest.not_digit,
        List.append_nil]
    have hnext := isDigit_next (hdigits c (.head _)) (digits ++ rest)
    rw [htake, hvalue, if_pos hn] at hnext
    rw [List.cons_append, List.singleton_append]
    refine .token hnext ?_
    rwa [List.drop_left]

theorem next_symbol (op : ArithOp) : ∃ c, op.symbol.toList = [c] ∧
    ∀ rest, Lexeme.next c rest = Lexeme.operator op rest := by
  cases op with
  | plus => exact ⟨'+', rfl, fun _ => rfl⟩
  | minus => exact ⟨'-', rfl, fun _ => rfl⟩
  | times => exact ⟨'*', rfl, fun _ => rfl⟩
  | divide => exact ⟨'/', rfl, fun _ => rfl⟩

/-- An arithmetic operator, unless a word follows. -/
theorem Lexes.arith (op : ArithOp) (hrest : rest.head? ≠ some 'r') (h : Lexes rest ts) :
    Lexes (op.symbol.toList ++ rest) (.arith op :: ts) := by
  obtain ⟨c, hc, hnext⟩ := next_symbol op
  rw [hc, List.singleton_append]
  refine .token (n := 0) ?_ h
  rw [hnext, Lexeme.operator, if_neg]
  rcases rest with _ | ⟨d, rest⟩
  · simp
  · simp only [List.head?_cons, ne_eq, Option.some.injEq] at hrest
    simp [hrest]

theorem Lexes.reduction (op : ArithOp) (h : Lexes rest ts) :
    Lexes (op.symbol.toList ++ ('r' :: 'e' :: 'd' :: rest)) (.reduction op :: ts) := by
  obtain ⟨c, hc, hnext⟩ := next_symbol op
  rw [hc, List.singleton_append]
  refine .token (n := 3) ?_ h
  rw [hnext]
  exact if_pos rfl

theorem Ends.head_ne (h : Ends rest) : rest.head? ≠ some 'r' := by
  intro hhead
  rcases h _ hhead with h | h | h <;> revert h <;> decide

theorem Grammar.Leads.spells {op : Operator} (h : Leads t op) : Spells op.spelling.toList [t] := by
  cases h with
  | transpose => exact .word ['r', 'a', 'n'] rfl rfl rfl
  | shape => exact .word ['h', 'p'] rfl rfl rfl
  | dim => exact .word ['i', 'm'] rfl rfl rfl
  | iota => exact .word ['o', 't', 'a'] rfl rfl rfl
  | tau => exact .word ['a', 'u'] rfl rfl rfl
  | rav => exact .word ['a', 'v'] rfl rfl rfl
  | reduce op =>
    intro rest ts _ hts
    show Lexes ((op.symbol ++ "red").toList ++ rest) _
    rw [String.toList_append, List.append_assoc]
    exact .reduction op hts

theorem Grammar.Joins.spells {X : Category} {o : List Token} {op : Operator} (h : Joins X o op) :
    Spells op.spelling.toList o := by
  have harith : ∀ op : ArithOp, Spells op.symbol.toList [.arith op] :=
    fun op rest ts hrest hts => .arith op hrest.head_ne hts
  cases h with
  | assign => exact fun rest ts _ hts => .token (n := 1) rfl hts
  | psi => exact .word ['s', 'i'] rfl rfl rfl
  | take => exact .word ['a', 'k', 'e'] rfl rfl rfl
  | drop => exact .word ['r', 'o', 'p'] rfl rfl rfl
  | cat => exact .word ['a', 't'] rfl rfl rfl
  | permute => exact .word ['r', 'a', 'n'] rfl rfl rfl
  | outer op =>
    intro rest ts hrest hts
    show Lexes (("." ++ op.symbol).toList ++ rest) _
    rw [String.toList_append, List.append_assoc]
    exact .token (n := 0) rfl (harith op rest ts hrest hts)
  | inner fold combine =>
    intro rest ts hrest hts
    show Lexes ((fold.symbol ++ "." ++ combine.symbol).toList ++ rest) _
    rw [String.toList_append, String.toList_append, List.append_assoc, List.append_assoc]
    exact .arith fold (by simp) (.token (n := 0) rfl (harith combine rest ts hrest hts))
  | plus => exact harith .plus
  | minus => exact harith .minus
  | times => exact harith .times
  | divide => exact harith .divide

end

/-! ## Vectors and phrases -/

theorem Ends.blank (rest : List Char) : Ends (' ' :: rest) := fun _ h => .inl (Option.some.inj h).symm

theorem Ends.rightParen (rest : List Char) : Ends (')' :: rest) :=
  fun _ h => .inr (.inl (Option.some.inj h).symm)

theorem Ends.rightAngle (rest : List Char) : Ends ('>' :: rest) :=
  fun _ h => .inr (.inr (Option.some.inj h).symm)

/-- An element is one token. -/
theorem Element.Regular.spells {e : Element} (h : e.Regular) :
    ∃ t, Spells e.text.toList [t] ∧ ∀ {u values}, Elements u values →
      Elements (t :: u) (e :: values) := by
  obtain ⟨n, rfl, hn⟩ | ⟨name, rfl, hname⟩ := h
  · exact ⟨.integer n, .integer hn, .integer n⟩
  · exact ⟨.ident name, hname.spells, .name name⟩

theorem elements_spells {values : Shape} (h : ∀ e ∈ values, e.Regular) : ∃ u, Elements u values ∧
    ∀ rest ts, Lexes rest ts → Lexes ((" ".intercalate (values.map Element.text)).toList ++ '>' :: rest)
      (u ++ .rightAngle :: ts) := by
  induction values with
  | nil => exact ⟨[], .nil, fun rest ts hts => .token (n := 0) rfl hts⟩
  | cons e values ih =>
    obtain ⟨t, ht, helement⟩ := (h e (.head _)).spells
    obtain ⟨u, hu, hlexes⟩ := ih fun e he => h e (.tail _ he)
    refine ⟨t :: u, helement hu, fun rest ts hts => ?_⟩
    have htail := hlexes rest ts hts
    cases values with
    | nil => exact ht _ _ (.rightAngle rest) htail
    | cons e' values =>
      rw [List.map_cons, List.map_cons, String.intercalate_cons_cons, String.toList_append,
        String.toList_append, List.append_assoc, List.append_assoc]
      exact ht _ _ (.blank _) htail.space

theorem Shape.spells {values : Shape} (h : ∀ e ∈ values, e.Regular) : ∃ u, Elements u values ∧
    Spells values.text.toList (.leftAngle :: (u ++ [.rightAngle])) := by
  obtain ⟨u, hu, hlexes⟩ := elements_spells h
  refine ⟨u, hu, fun rest ts _ hts => ?_⟩
  simp only [Shape.text, String.toList_append, List.append_assoc, List.cons_append]
  exact .token (n := 0) rfl (hlexes rest ts hts)

/-- **A phrase is read as it is written**: its text is the tokens of a primary that is the phrase. -/
theorem Phrase.spells {p : Phrase} (h : p.Regular) : ∃ u, Spells p.source.toList u ∧
    ∀ rest, Derives (fun _ => Closing) .primary u rest p := by
  induction p with
  | name n => exact ⟨_, IsWord.spells h, fun _ => .name n⟩
  | declared n shape =>
    obtain ⟨u, hu, hspells⟩ := Shape.spells h.2
    refine ⟨_, fun rest ts hrest hts => ?_, fun _ => .declared n hu⟩
    simp only [source, String.toList_append, List.append_assoc]
    exact IsWord.spells h.1 _ _ (.blank _)
      (Lexes.space (.token (n := 0) rfl (Lexes.space (hspells rest ts hrest hts))))
  | vector values =>
    obtain ⟨u, hu, hspells⟩ := Shape.spells h
    exact ⟨_, hspells, fun _ => .vector hu⟩
  | unary op p ih =>
    obtain ⟨⟨t, ht⟩, hp⟩ := h
    obtain ⟨u, hspells, hderives⟩ := ih hp
    refine ⟨.leftParen :: (t :: u ++ [.rightParen]), fun rest ts _ hts => ?_, fun rest => .paren ?_⟩
    · simp only [source, String.toList_append, List.append_assoc, List.cons_append]
      refine .token (n := 0) rfl (ht.spells _ _ (.blank _) (Lexes.space ?_))
      exact hspells _ _ (.rightParen rest) (.token (n := 0) rfl hts)
    · exact (Derives.leading ht (hderives _).expr (closing_rightParen rest)).expr
  | binary op l r ihl ihr =>
    obtain ⟨⟨X, o, hop⟩, hl, hr⟩ := h
    obtain ⟨u, hleft, hu⟩ := ihl hl
    obtain ⟨v, hright, hv⟩ := ihr hr
    refine ⟨.leftParen :: ((u ++ (o ++ v)) ++ [.rightParen]), fun rest ts _ hts => ?_,
      fun rest => .paren ?_⟩
    · simp only [source, String.toList_append, List.append_assoc, List.cons_append]
      refine .token (n := 0) rfl (hleft _ _ (.blank _) (Lexes.space ?_))
      refine hop.spells _ _ (.blank _) (Lexes.space ?_)
      exact hright _ _ (.rightParen rest) (.token (n := 0) rfl hts)
    · have hle := hop.rank_le
      obtain ⟨Y, hY⟩ := exists_holds (X := X) (by omega)
      refine (Derives.join hY hop ((hu _).loosen ?_) ((hv _).loosen ?_)).expr
      · show X.rank ≤ 5
        omega
      · rw [hY.rank_eq]
        show X.rank + 1 ≤ 5
        omega

end PsiCalculus
