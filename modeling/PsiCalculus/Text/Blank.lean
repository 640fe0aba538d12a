/-! # Blank characters

The characters that trimming removes at both ends of a text: the white space of all scripts.
-/

namespace PsiCalculus.Text

/-- Closed ranges of the code points of white space, in increasing order. -/
def blanks : List (Nat × Nat) :=
  [(0x9, 0xd), (0x20, 0x20), (0x85, 0x85), (0xa0, 0xa0), (0x1680, 0x1680), (0x2000, 0x200a),
    (0x2028, 0x2029), (0x202f, 0x202f), (0x205f, 0x205f), (0x3000, 0x3000)]

/-- Whether `c` is white space. -/
def isBlank (c : Char) : Bool :=
  blanks.any fun (lo, hi) => lo ≤ c.toNat && c.toNat ≤ hi

/-- The text without the white space at its ends. -/
def trim (s : String) : String :=
  String.ofList (((s.toList.dropWhile isBlank).reverse.dropWhile isBlank).reverse)

end PsiCalculus.Text
