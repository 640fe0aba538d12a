import Mathlib.Data.String.Basic
import PsiCalculus.Proofs.Grammar.Spelling

/-!
# Scanning

What reading a source into tokens promises, said by the patterns of the tokens and not by the scanner.

* `Token.Matches t word`: the pattern of the token admits the word. `Token.Chosen t word rest`: of all
  tokens whose pattern admits the beginning of `word ++ rest`, `t` with `word` is the one to be taken.
* `Gap g rest`: blanks and comments, before `rest`. `Stuck rest`: neither a gap nor a token starts here.
* `Laid position cs tokens stop rest`: from byte `position` on the characters are gaps and chosen tokens,
  up to byte `stop`, before which `rest` is not read.
* `Lexeme.next_chosen`, `Lexeme.next_stuck`: what the scanner takes at one place, and where it takes
  nothing. `scanFrom_laid`, `scanFrom_stuck`: so for a whole source.
* `Token.Regular.spells`: the text of a token that was read is read as the token.
-/

namespace PsiCalculus

namespace Token

/-! ## Patterns -/

/-- The tokens that are spelled in one way. -/
def isFixed : Token → Bool
  | .integer _ | .ident _ => false
  | _ => true

/-- The fixed tokens that look like identifiers. -/
def keywords : List Token := [psi, take, drop, cat, tran, iota, dim, tau, shp, rav]

/-- The pattern of the token admits the word. A run of digits of any length is an integer here, and a
keyword an identifier. -/
inductive Matches : Token → List Char → Prop
  | integer {digits : List Char} : digits ≠ [] → (∀ d ∈ digits, Text.isDigit d = true) →
      Matches (.integer (Text.decimal digits)) digits
  | ident {c : Char} {word : List Char} : isLetter c = true → (∀ d ∈ word, isIdentChar d = true) →
      Matches (.ident (String.ofList (c :: word))) (c :: word)
  | fixed {t : Token} : t.isFixed = true → Matches t t.text.toList

/-- The token is taken where `word` starts, before `rest`: no pattern admits a longer word, and of the
tokens whose patterns admit this one an identifier gives way. -/
structure Chosen (t : Token) (word rest : List Char) : Prop where
  spelled : t.Matches word
  longest : ∀ t' w, Matches t' w → w <+: word ++ rest → w.length ≤ word.length
  only : ∀ t', Matches t' word → t' = t ∨ ∃ name, t' = .ident name
  keyword : t ∈ keywords → word = (word ++ rest).takeWhile isIdentChar
  bounded : ∀ n, t = .integer n → n ≤ maxInteger

/-- The characters start with an integer that is too large. -/
def Huge (cs : List Char) : Prop := maxInteger < Text.decimal (cs.takeWhile Text.isDigit)

end Token

open Token

/-- Blanks, and comments that run to the end of a line, before `rest`. -/
inductive Gap : List Char → List Char → Prop
  | nil {rest : List Char} : Gap [] rest
  | blank {c : Char} {g rest : List Char} : isSpace c = true → Gap g rest → Gap (c :: g) rest
  | comment {line g rest : List Char} : (∀ c ∈ line, c ≠ '\n') →
      (∀ c, (g ++ rest).head? = some c → c = '\n') → Gap g rest → Gap ('#' :: (line ++ g)) rest

/-- Neither a gap nor an admissible token starts here, and the source does not end. -/
structure Stuck (rest : List Char) : Prop where
  gapless : ∃ c cs, rest = c :: cs ∧ isSpace c = false ∧ c ≠ '#'
  tokenless : Huge rest ∨ ∀ t w, Matches t w → ¬ w <+: rest

/-- The characters from byte `position` to byte `stop` are the tokens with gaps between them. What comes
after is `rest`. -/
inductive Laid : Nat → List Char → List Spanned → Nat → List Char → Prop
  | done {position : Nat} {g rest : List Char} : Gap g rest →
      Laid position (g ++ rest) [] (position + byteLength g) rest
  | token {position stop : Nat} {g word cs rest : List Char} {t : Token} {tokens : List Spanned} :
      Gap g (word ++ cs) → t.Chosen word cs →
      Laid (position + byteLength g + byteLength word) cs tokens stop rest →
      Laid position (g ++ (word ++ cs))
        (⟨t, position + byteLength g, position + byteLength g + byteLength word⟩ :: tokens) stop rest

/-! ## One place -/

namespace Lexeme

/-- What is taken before `word ++ rest` covers a match, and is the match if it is not longer. -/
structure Covers (t : Token) (c : Char) (word rest : List Char) : Prop where
  length_le : word.length ≤ (next c (word ++ rest)).2
  token : word.length = (next c (word ++ rest)).2 →
    (next c (word ++ rest)).1 = .stray ∨ (next c (word ++ rest)).1 = .token t ∨
      ∃ name, t = .ident name
  stray : (next c (word ++ rest)).1 = .stray → Huge (c :: (word ++ rest))

theorem covers_integer {c : Char} {word : List Char} (h : ∀ d ∈ c :: word, Text.isDigit d = true)
    (rest : List Char) : Covers (.integer (Text.decimal (c :: word))) c word rest := by
  rw [List.forall_mem_cons] at h
  have hrun : (word ++ rest).takeWhile Text.isDigit = word ++ rest.takeWhile Text.isDigit :=
    List.takeWhile_append_of_pos h.2
  have hnext := isDigit_next h.1 (word ++ rest)
  refine ⟨?_, fun hlen => ?_, fun hstray => ?_⟩
  · rw [hnext, hrun]
    simp
  · rw [hnext, hrun] at hlen ⊢
    have hend : rest.takeWhile Text.isDigit = [] := by simpa using hlen
    rw [hend, List.append_nil]
    split
    · exact .inr (.inl rfl)
    · exact .inl rfl
  · rw [hnext] at hstray
    dsimp only at hstray
    split at hstray
    · cases hstray
    · next hle =>
      rw [Huge, List.takeWhile_cons_of_pos h.1]
      exact Nat.lt_of_not_le hle

/-- A match that starts with a letter. -/
theorem covers_word {t : Token} {c : Char} {word : List Char} (hc : isLetter c = true)
    (hword : ∀ d ∈ word, isIdentChar d = true)
    (ht : t = ofWord (String.ofList (c :: word)) ∨ ∃ name, t = .ident name) (rest : List Char) :
    Covers t c word rest := by
  have hrun : (word ++ rest).takeWhile isIdentChar = word ++ rest.takeWhile isIdentChar :=
    List.takeWhile_append_of_pos hword
  have hnext := isLetter_next hc (word ++ rest)
  refine ⟨?_, fun hlen => ?_, fun hstray => ?_⟩
  · rw [hnext, hrun]
    simp
  · rw [hnext, hrun] at hlen ⊢
    have hend : rest.takeWhile isIdentChar = [] := by simpa using hlen
    rw [hend, List.append_nil]
    rcases ht with rfl | hident
    · exact .inr (.inl rfl)
    · exact .inr (.inr hident)
  · rw [hnext] at hstray
    cases hstray

/-- A match after which the scanner goes no further. -/
theorem covers_of_next {t : Token} {c : Char} {word rest : List Char} {n : Nat}
    (h : next c (word ++ rest) = (.token t, n)) (hn : word.length = n) : Covers t c word rest := by
  refine ⟨?_, fun _ => .inr (.inl ?_), fun hstray => ?_⟩
  · rw [h, hn]
  · rw [h]
  · rw [h] at hstray
    cases hstray

theorem covers_arith (op : ArithOp) {c : Char} (hc : ∀ rest, next c rest = operator op rest)
    (rest : List Char) : Covers (.arith op) c [] rest := by
  by_cases hred : rest.take 3 = ['r', 'e', 'd']
  · have hnext : next c ([] ++ rest) = (.token (.reduction op), 3) := (hc rest).trans (if_pos hred)
    refine ⟨Nat.zero_le _, fun hlen => ?_, fun hstray => ?_⟩
    · rw [hnext] at hlen
      cases hlen
    · rw [hnext] at hstray
      cases hstray
  · exact covers_of_next ((hc rest).trans (if_neg hred)) rfl

theorem keyword_word {t : Token} (h : t ∈ keywords) : ∃ c word, t.text.toList = c :: word ∧
    isLetter c = true ∧ (∀ d ∈ word, isIdentChar d = true) ∧
      t = ofWord (String.ofList (c :: word)) := by
  simp only [keywords, List.mem_cons, List.not_mem_nil, or_false] at h
  rcases h with rfl | rfl | rfl | rfl | rfl | rfl | rfl | rfl | rfl | rfl
  all_goals exact ⟨_, _, rfl, by decide, List.all_eq_true.1 rfl, by decide⟩

theorem covers_fixed {t : Token} (ht : t.isFixed = true) {c : Char} {word : List Char}
    (hword : t.text.toList = c :: word) (rest : List Char) : Covers t c word rest := by
  by_cases hkey : t ∈ keywords
  · obtain ⟨c', word', heq, hc, hall, hof⟩ := keyword_word hkey
    cases hword.symm.trans heq
    exact covers_word hc hall (.inl hof) rest
  cases t with
  | integer | ident => cases ht
  | psi | take | drop | cat | tran | iota | dim | tau | shp | rav => exact absurd (by decide) hkey
  | reduction op =>
    obtain ⟨c', hsymbol, hnext⟩ := next_symbol op
    have heq : (op.symbol ++ "red").toList = c :: word := hword
    rw [String.toList_append, hsymbol] at heq
    cases heq
    exact covers_of_next ((hnext _).trans (if_pos rfl)) rfl
  | arith op =>
    obtain ⟨c', hsymbol, hnext⟩ := next_symbol op
    cases hsymbol.symm.trans hword
    exact covers_arith op hnext rest
  | dot | assign | caret | leftAngle | rightAngle | leftParen | rightParen =>
    cases hword
    exact covers_of_next rfl rfl

theorem covers {t : Token} {c : Char} {word : List Char} (h : t.Matches (c :: word))
    (rest : List Char) : Covers t c word rest := by
  generalize hw : c :: word = w at h
  cases h with
  | integer _ hdigits =>
    subst hw
    exact covers_integer hdigits rest
  | ident hc hword =>
    cases hw
    exact covers_word hc hword (.inr ⟨_, rfl⟩) rest
  | fixed ht => exact covers_fixed ht hw.symm rest

theorem matches_ne_nil {t : Token} {w : List Char} (h : t.Matches w) : w ≠ [] := by
  cases h with
  | integer hne => exact hne
  | ident => exact List.cons_ne_nil _ _
  | fixed ht =>
    cases t with
    | integer | ident => cases ht
    | reduction op | arith op => cases op <;> decide
    | _ => decide

/-- A match at a place is a match of its first character and of what follows. -/
theorem covers_of_prefix {t : Token} {w : List Char} {c : Char} {rest : List Char}
    (h : t.Matches w) (hpre : w <+: c :: rest) :
    ∃ word after, w = c :: word ∧ rest = word ++ after ∧ Covers t c word after := by
  obtain ⟨after, hafter⟩ := hpre
  cases w with
  | nil => exact absurd rfl (matches_ne_nil h)
  | cons d word =>
    cases hafter
    exact ⟨word, after, rfl, rfl, covers h after⟩

theorem ofWord_cases (s : String) :
    ofWord s = .ident s ∨ (ofWord s).isFixed = true ∧ (ofWord s).text = s := by
  unfold ofWord
  split
  all_goals first | exact .inr ⟨rfl, rfl⟩ | exact .inl rfl

theorem take_takeWhile {α : Type} (p : α → Bool) (l : List α) :
    l.take (l.takeWhile p).length = l.takeWhile p := by
  conv_lhs => rw [← List.takeWhile_append_dropWhile (p := p) (l := l)]
  exact List.take_left' (by rw [List.takeWhile_append_dropWhile])

theorem drop_takeWhile {α : Type} (p : α → Bool) (l : List α) :
    l.drop (l.takeWhile p).length = l.dropWhile p := by
  conv_lhs => rw [← List.takeWhile_append_dropWhile (p := p) (l := l)]
  exact List.drop_left' (by rw [List.takeWhile_append_dropWhile])

/-- What is taken where `c` stands before `rest`, and how much of `rest`. -/
inductive Takes (c : Char) (rest : List Char) : Lexeme → Nat → Prop
  | blanks : isSpace c = true → Takes c rest .gap (rest.takeWhile isSpace).length
  | comment : c = '#' → Takes c rest .gap (rest.takeWhile (· ≠ '\n')).length
  | integer : Text.isDigit c = true →
      Takes c rest (.token (.integer (Text.decimal (c :: rest.takeWhile Text.isDigit))))
        (rest.takeWhile Text.isDigit).length
  | word : isLetter c = true →
      Takes c rest (.token (ofWord (String.ofList (c :: rest.takeWhile isIdentChar))))
        (rest.takeWhile isIdentChar).length
  | fixed {t : Token} {word : List Char} : t.isFixed = true → t.text.toList = c :: word →
      word <+: rest → Takes c rest (.token t) word.length
  | stray {n : Nat} : isSpace c = false → c ≠ '#' → n ≤ rest.length → Takes c rest .stray n

theorem takes_next (c : Char) (rest : List Char) : Takes c rest (next c rest).1 (next c rest).2 := by
  have hoperator : ∀ {op : ArithOp}, op.symbol.toList = [c] →
      Takes c rest (operator op rest).1 (operator op rest).2 := by
    intro op hop
    unfold operator
    split
    · next hred =>
      have htext : (Token.reduction op).text.toList = c :: rest.take 3 := by
        show (op.symbol ++ "red").toList = _
        rw [String.toList_append, hop, hred]
        rfl
      have hlen : (rest.take 3).length = 3 := congrArg List.length hred
      exact hlen ▸ .fixed rfl htext (List.take_prefix 3 rest)
    · exact .fixed (t := .arith op) rfl hop (List.nil_prefix)
  unfold next
  split
  · next hc => exact .blanks hc
  next hspace =>
  rw [Bool.not_eq_true] at hspace
  split
  · next hc => exact .comment hc
  next hhash =>
  split
  · next hc =>
    dsimp only
    split
    · exact .integer hc
    · exact .stray hspace hhash (List.takeWhile_sublist _).length_le
  split
  · next hc => exact .word hc
  split
  iterate 4
    · exact hoperator rfl
  iterate 6
    · exact .fixed rfl rfl List.nil_prefix
  · split
    · next hhead =>
      obtain ⟨rest, rfl⟩ := List.head?_eq_some_iff.1 hhead
      exact .fixed (t := .assign) rfl rfl ⟨rest, rfl⟩
    · exact .stray hspace hhash (Nat.zero_le _)
  · exact .stray hspace hhash (Nat.zero_le _)

theorem takes_of_next {c : Char} {rest : List Char} {l : Lexeme} {n : Nat}
    (h : next c rest = (l, n)) : Takes c rest l n := by
  have htakes := takes_next c rest
  rwa [h] at htakes

theorem next_le {c : Char} {rest : List Char} {l : Lexeme} {n : Nat} (h : next c rest = (l, n)) :
    n ≤ rest.length := by
  cases takes_of_next h with
  | blanks | comment | integer | word => exact (List.takeWhile_sublist _).length_le
  | fixed _ _ hpre => exact hpre.length_le
  | stray _ _ hle => exact hle

theorem matches_keyword {t : Token} {w : List Char} (hkey : t ∈ keywords) (h : t.Matches w) :
    w = t.text.toList := by
  cases h with
  | integer | ident => simp [keywords] at hkey
  | fixed => rfl

/-- The token that is taken is spelled by the characters it covers. -/
theorem next_matches {c : Char} {rest : List Char} {t : Token} {n : Nat}
    (h : next c rest = (.token t, n)) : t.Matches (c :: rest.take n) := by
  generalize hl : Lexeme.token t = l at h
  cases takes_of_next h with
  | blanks | comment | stray => cases hl
  | integer hc =>
    cases hl
    rw [take_takeWhile]
    refine .integer (List.cons_ne_nil _ _) (List.forall_mem_cons.2 ⟨hc, ?_⟩)
    exact List.all_eq_true.1 List.all_takeWhile
  | word hc =>
    cases hl
    rw [take_takeWhile]
    rcases ofWord_cases (String.ofList (c :: rest.takeWhile isIdentChar)) with hof | ⟨hfixed, htext⟩
    · rw [hof]
      exact .ident hc (List.all_eq_true.1 List.all_takeWhile)
    · have hmatch := Matches.fixed hfixed
      rwa [htext, String.toList_ofList] at hmatch
  | fixed hfixed htext hpre =>
    cases hl
    rw [← List.prefix_iff_eq_take.1 hpre, ← htext]
    exact .fixed hfixed

/-- **The longest token is taken.** -/
theorem next_chosen {c : Char} {rest : List Char} {t : Token} {n : Nat}
    (h : next c rest = (.token t, n)) : t.Chosen (c :: rest.take n) (rest.drop n) := by
  have hspelled := next_matches h
  have hall : (c :: rest.take n) ++ rest.drop n = c :: rest := by
    rw [List.cons_append, List.take_append_drop]
  have hlongest : ∀ t' w, Matches t' w → w <+: c :: rest → w.length ≤ (c :: rest.take n).length := by
    intro t' w hw hpre
    obtain ⟨word, after, rfl, rfl, hcovers⟩ := covers_of_prefix hw hpre
    have hle := hcovers.length_le
    rw [h] at hle
    simp only [List.length_cons, List.length_take, List.length_append]
    omega
  refine ⟨hspelled, hall.symm ▸ hlongest, fun t' ht' => ?_, fun hkey => ?_, fun m hm => ?_⟩
  · -- the match covers as much, so it is the token that is taken
    obtain ⟨word, after, hword, hrest, hcovers⟩ := covers_of_prefix ht' ⟨rest.drop n, hall⟩
    have htoken := hcovers.token
    rw [← hrest, h] at htoken
    have hlen : word.length = n := by
      rw [← (List.cons.inj hword).2, List.length_take, Nat.min_eq_left (next_le h)]
    rcases htoken hlen with hstray | htoken | hident
    · cases hstray
    · cases htoken
      exact .inl rfl
    · exact .inr hident
  · -- the run of identifier characters is an identifier, so it is not longer
    obtain ⟨d, word, htext, hd, hword, -⟩ := keyword_word hkey
    rw [matches_keyword hkey hspelled, htext] at hall hlongest ⊢
    have hrun : (d :: word ++ rest.drop n).takeWhile isIdentChar =
        d :: word ++ (rest.drop n).takeWhile isIdentChar :=
      List.takeWhile_append_of_pos
        (List.forall_mem_cons.2 ⟨by simp [isIdentChar, hd], hword⟩)
    have hle := hlongest _ _ (.ident hd (List.forall_mem_append.2
      ⟨hword, List.all_eq_true.1 List.all_takeWhile⟩)) (hall ▸ hrun ▸ List.takeWhile_prefix _)
    rw [hrun]
    have hend : (rest.drop n).takeWhile isIdentChar = [] := by simpa using hle
    rw [hend, List.append_nil]
  · subst hm
    exact next_regular h

/-- **Where nothing is taken, no token starts**, or an integer that is too large. -/
theorem next_stuck {c : Char} {rest : List Char} {n : Nat} (h : next c rest = (.stray, n)) :
    Stuck (c :: rest) := by
  have htakes := takes_of_next h
  cases htakes with
  | stray hspace hhash =>
    refine ⟨⟨c, rest, rfl, hspace, hhash⟩, ?_⟩
    by_cases hmatch : ∃ t w, Matches t w ∧ w <+: c :: rest
    · obtain ⟨t, w, hw, hpre⟩ := hmatch
      obtain ⟨word, after, -, rfl, hcovers⟩ := covers_of_prefix hw hpre
      exact .inl (hcovers.stray (by rw [h]))
    · exact .inr fun t w hw hpre => hmatch ⟨t, w, hw, hpre⟩

/-- A gap that is taken goes on in the gap after it. -/
theorem next_gap {c : Char} {rest : List Char} {n : Nat} (h : next c rest = (.gap, n))
    {g after : List Char} (hrest : rest.drop n = g ++ after) (hg : Gap g after) :
    Gap (c :: rest.take n ++ g) after := by
  have hblanks : ∀ {blanks : List Char}, (∀ d ∈ blanks, isSpace d = true) →
      Gap (blanks ++ g) after := by
    intro blanks hb
    induction blanks with
    | nil => exact hg
    | cons d blanks ih =>
      rw [List.forall_mem_cons] at hb
      exact .blank hb.1 (ih hb.2)
  have htakes := takes_of_next h
  cases htakes with
  | blanks hc =>
    rw [take_takeWhile, List.cons_append]
    exact .blank hc (hblanks (List.all_eq_true.1 List.all_takeWhile))
  | comment hc =>
    subst hc
    rw [drop_takeWhile] at hrest
    rw [take_takeWhile, List.cons_append]
    refine .comment (fun d hd => ?_) (fun d hd => ?_) hg
    · simpa using List.all_eq_true.1 List.all_takeWhile d hd
    · have hstop := List.head?_dropWhile_not (fun c => decide (c ≠ '\n')) rest
      rw [hrest, hd] at hstop
      simpa using hstop

end Lexeme

/-! ## A whole source -/

theorem byteLength_append (cs cs' : List Char) :
    byteLength (cs ++ cs') = byteLength cs + byteLength cs' := by
  induction cs with
  | nil => exact (Nat.zero_add _).symm
  | cons c cs ih => rw [List.cons_append, byteLength, byteLength, ih, Nat.add_assoc]

theorem byteLength_eq (cs : List Char) : byteLength cs = String.utf8Len cs := by
  induction cs with
  | nil => rfl
  | cons c cs ih => rw [byteLength, String.utf8Len_cons, ih, Nat.add_comm]

/-- A gap in front belongs to the first gap. -/
theorem Laid.gap {position stop : Nat} {g cs rest : List Char} {tokens : List Spanned}
    (hg : ∀ {g' after : List Char}, cs = g' ++ after → Gap g' after → Gap (g ++ g') after)
    (h : Laid (position + byteLength g) cs tokens stop rest) :
    Laid position (g ++ cs) tokens stop rest := by
  cases h with
  | @done _ g' _ hgap =>
    rw [← List.append_assoc, Nat.add_assoc, ← byteLength_append]
    exact .done (hg rfl hgap)
  | @token _ _ g' word cs _ t tokens hgap hchosen hrest =>
    rw [← List.append_assoc]
    rw [Nat.add_assoc position, ← byteLength_append] at hrest ⊢
    exact .token (hg rfl hgap) hchosen hrest

/-- A token in front comes first. -/
theorem Laid.cons {position stop : Nat} {word cs rest : List Char} {t : Token}
    {tokens : List Spanned} (ht : t.Chosen word cs)
    (h : Laid (position + byteLength word) cs tokens stop rest) :
    Laid position (word ++ cs) (⟨t, position, position + byteLength word⟩ :: tokens) stop rest :=
  .token (g := []) .nil ht h

/-- What is taken at a place is followed by what is left. -/
theorem cons_take_append_drop (c : Char) (rest : List Char) (n : Nat) :
    c :: rest.take n ++ rest.drop n = c :: rest := by
  rw [List.cons_append, List.take_append_drop]

theorem Token.scanFrom_laid (position : Nat) (source : List Char) {tokens : List Spanned}
    (h : scanFrom position source = .ok tokens) :
    Laid position source tokens (position + byteLength source) [] := by
  fun_induction scanFrom position source generalizing tokens with
  | case1 =>
    cases h
    exact .done (g := []) .nil
  | case2 =>
    rename_i position c rest extra covered stop hnext ih
    have hlaid := ih h
    rw [show stop = position + byteLength covered from rfl, Nat.add_assoc, ← byteLength_append,
      cons_take_append_drop] at hlaid
    have hgap := hlaid.gap (Lexeme.next_gap hnext)
    rwa [cons_take_append_drop] at hgap
  | case3 =>
    rename_i position c rest extra covered stop t hnext ih
    obtain ⟨later, hlater, hcons⟩ := except_bind_ok.1 h
    cases hcons
    have hlaid := ih hlater
    rw [show stop = position + byteLength covered from rfl, Nat.add_assoc, ← byteLength_append,
      cons_take_append_drop] at hlaid
    have htoken := hlaid.cons (Lexeme.next_chosen hnext)
    rwa [cons_take_append_drop] at htoken
  | case4 => cases h

theorem Token.scanFrom_stuck (position : Nat) (source : List Char) {e : Error}
    (h : scanFrom position source = .error e) : ∃ stop text tokens rest, e = .noToken stop text ∧
      Laid position source tokens stop rest ∧ Stuck rest := by
  fun_induction scanFrom position source with
  | case1 => cases h
  | case2 =>
    rename_i position c rest extra covered stop hnext ih
    obtain ⟨stop', text, tokens, after, he, hlaid, hstuck⟩ := ih h
    have hgap := hlaid.gap (Lexeme.next_gap hnext)
    rw [cons_take_append_drop] at hgap
    exact ⟨stop', text, tokens, after, he, hgap, hstuck⟩
  | case3 =>
    rename_i position c rest extra covered stop t hnext ih
    have hlater : scanFrom stop (rest.drop extra) = .error e := by
      cases hscan : scanFrom stop (rest.drop extra) with
      | ok later =>
        rw [hscan] at h
        cases h
      | error e' =>
        rw [hscan] at h
        exact h
    obtain ⟨stop', text, tokens, after, he, hlaid, hstuck⟩ := ih hlater
    have htoken := hlaid.cons (Lexeme.next_chosen hnext)
    rw [cons_take_append_drop] at htoken
    exact ⟨stop', text, _, after, he, htoken, hstuck⟩
  | case4 =>
    rename_i position c rest extra covered hnext
    cases h
    exact ⟨position, _, [], c :: rest, rfl, .done (g := []) .nil, Lexeme.next_stuck hnext⟩

/-! ## Spans -/

/-- The text of the source that a token covers. -/
def Spanned.text (s : Spanned) (source : String) : String :=
  String.Pos.Raw.extract source ⟨s.start⟩ ⟨s.stop⟩

/-- The tokens cover texts that spell them, one after another, in bounds. -/
structure Spans (source : String) (tokens : List Spanned) : Prop where
  covers : ∀ s ∈ tokens, s.start < s.stop ∧ s.stop ≤ source.utf8ByteSize ∧
    s.token.Matches (s.text source).toList
  disjoint : tokens.Pairwise fun a b => a.stop ≤ b.start

theorem Token.Matches.byteLength_pos {t : Token} {w : List Char} (h : t.Matches w) :
    0 < byteLength w := by
  obtain ⟨c, word, rfl⟩ := List.exists_cons_of_ne_nil (Lexeme.matches_ne_nil h)
  exact Nat.add_pos_left c.utf8Size_pos _

/-- Where the tokens of a part of a source stand. -/
theorem Laid.spans {source : String} (before : List Char) {cs rest : List Char}
    {tokens : List Spanned} {stop : Nat} (h : Laid (byteLength before) cs tokens stop rest)
    (hsource : source.toList = before ++ cs) :
    Spans source tokens ∧ ∀ s ∈ tokens, byteLength before ≤ s.start := by
  generalize hposition : byteLength before = position at h
  induction h generalizing before with
  | done => exact ⟨⟨List.forall_mem_nil _, .nil⟩, List.forall_mem_nil _⟩
  | @token position stop g word cs rest t tokens hgap hchosen _ ih =>
    subst hposition
    obtain ⟨hspans, hlater⟩ := ih (before ++ g ++ word)
      (by rw [hsource]; simp only [List.append_assoc]) (by simp only [byteLength_append])
    have hpos := hchosen.spelled.byteLength_pos
    have hsize : source.utf8ByteSize = byteLength (before ++ g ++ word ++ cs) := by
      rw [byteLength_eq, ← String.utf8Len_toList, hsource]
      simp only [List.append_assoc]
    have htext : (Spanned.text ⟨t, byteLength before + byteLength g,
        byteLength before + byteLength g + byteLength word⟩ source).toList = word := by
      have hextract := String.extract_of_valid (before ++ g) word cs
      simp only [← byteLength_eq, byteLength_append] at hextract
      rw [Spanned.text, ← String.ofList_toList (s := source), hsource]
      simp only [List.append_assoc] at hextract ⊢
      rw [hextract, String.toList_ofList]
    simp only [byteLength_append] at hlater hsize
    have hstop : byteLength before + byteLength g + byteLength word ≤ source.utf8ByteSize := by
      omega
    refine ⟨⟨List.forall_mem_cons.2 ⟨⟨Nat.lt_add_of_pos_right hpos, hstop,
      htext.symm ▸ hchosen.spelled⟩, hspans.covers⟩,
      List.pairwise_cons.2 ⟨hlater, hspans.disjoint⟩⟩,
      List.forall_mem_cons.2 ⟨Nat.le_add_right _ _, fun s hs => ?_⟩⟩
    have hle := hlater s hs
    omega

/-! ## The text of tokens -/

/-- **The text of a token is read as the token**, before every text that ends a word. -/
theorem Token.Regular.spells {t : Token} (h : t.Regular) : Spells t.text.toList [t] := by
  by_cases hkey : t ∈ keywords
  · obtain ⟨c, word, htext, hc, hword, hof⟩ := Lexeme.keyword_word hkey
    have hspells := Spells.word word htext hc (List.all_eq_true.2 hword)
    rwa [← String.ofList_toList (s := t.text), htext, ← hof, String.toList_ofList, ← htext] at hspells
  cases t with
  | integer n => exact .integer h
  | ident name => exact IsWord.spells h
  | psi | take | drop | cat | tran | iota | dim | tau | shp | rav => exact absurd (by decide) hkey
  | reduction op => exact (Grammar.Leads.reduce op).spells
  | arith op => exact fun rest ts hrest hts => .arith op hrest.head_ne hts
  | assign => exact fun rest ts _ hts => .token (n := 1) rfl hts
  | dot | caret | leftAngle | rightAngle | leftParen | rightParen =>
    exact fun rest ts _ hts => .token (n := 0) rfl hts

theorem lexes_texts {ts : List Token} (h : ∀ t ∈ ts, t.Regular) :
    Lexes (" ".intercalate (ts.map Token.text)).toList ts := by
  induction ts with
  | nil => exact .nil
  | cons t ts ih =>
    rw [List.forall_mem_cons] at h
    have hrest := ih h.2
    cases ts with
    | nil =>
      have hend : Ends [] := nofun
      simpa using h.1.spells [] [] hend .nil
    | cons t' ts =>
      rw [List.map_cons, List.map_cons, String.intercalate_cons_cons, String.toList_append,
        String.toList_append, List.append_assoc]
      exact h.1.spells _ _ (.blank _) hrest.space

/-- **Scanning is faithful.** If it succeeds, the source is gaps and tokens, each the longest that can
be taken at its place; the spans are in bounds, not empty, in order and disjoint, and their texts spell
the tokens; and the texts of the tokens with blanks between them are read as the same tokens. If it
fails, it does so at the first place, after gaps and tokens chosen in the same way, where no token starts
or an integer that is too large. -/
theorem Token.scan_faithful (source : String) :
    (∀ tokens, scan source = .ok tokens →
      Laid 0 source.toList tokens source.utf8ByteSize [] ∧ Spans source tokens ∧
        ∃ again, scan (" ".intercalate (tokens.map fun s => s.token.text)) = .ok again ∧
          again.map Spanned.token = tokens.map Spanned.token) ∧
      ∀ e, scan source = .error e → ∃ position text tokens rest, e = .noToken position text ∧
        Laid 0 source.toList tokens position rest ∧ Stuck rest := by
  refine ⟨fun tokens h => ?_, fun e h => scanFrom_stuck 0 source.toList h⟩
  have hlaid := scanFrom_laid 0 source.toList h
  have hspans := (Laid.spans [] hlaid rfl).1
  have hregular : ∀ t ∈ tokens.map Spanned.token, t.Regular := by
    intro t ht
    obtain ⟨s, hs, rfl⟩ := List.mem_map.1 ht
    exact scanFrom_regular 0 source.toList h s hs
  rw [Nat.zero_add, byteLength_eq, String.utf8Len_toList] at hlaid
  refine ⟨hlaid, hspans, ?_⟩
  have hlexes := lexes_texts hregular 0
  rwa [List.map_map] at hlexes

/-- A name that starts like a keyword, a comment, and a reduction with a name right after it. -/
theorem Token.scan_faithful_reduction : ∃ tokens, scan "psix # summed\n+redx" = .ok tokens ∧
    tokens.map Spanned.token = [Token.ident "psix", Token.reduction .plus, Token.ident "x"] ∧
    Laid 0 "psix # summed\n+redx".toList tokens 19 [] ∧ Spans "psix # summed\n+redx" tokens := by
  have hrun : (do
      let tokens ← scan "psix # summed\n+redx"
      return decide (tokens.map Spanned.token =
        [Token.ident "psix", Token.reduction .plus, Token.ident "x"])) =
        .ok true := by
    decide +kernel
  obtain ⟨tokens, hscan, hrun⟩ := except_bind_ok.1 hrun
  simp only [pure, Except.pure, Except.ok.injEq, decide_eq_true_eq] at hrun
  obtain ⟨hlaid, hspans, -⟩ := (scan_faithful "psix # summed\n+redx").1 tokens hscan
  exact ⟨tokens, hscan, hrun, hlaid, hspans⟩

end PsiCalculus
