set_option autoImplicit false

/-!
# Blank characters

The characters that a number may have around it: space, tabulators, line and page
breaks, and the blanks of Unicode beyond the ASCII range.  The separators of the ASCII
control range are none of them.
-/

namespace PhasedArray

namespace Text

/-- The first and the last code point of each run of blanks. -/
def blankRuns : List (Nat × Nat) :=
  [(0x9, 0xd), (0x20, 0x20), (0x85, 0x85), (0xa0, 0xa0), (0x1680, 0x1680), (0x2000, 0x200a),
    (0x2028, 0x2029), (0x202f, 0x202f), (0x205f, 0x205f), (0x3000, 0x3000)]

/-- Whether a character is blank. -/
def isBlank (c : Char) : Bool := blankRuns.any fun r => r.1 ≤ c.toNat && c.toNat ≤ r.2

/-- The characters without blanks at either end. -/
def trim (cs : List Char) : List Char :=
  ((cs.dropWhile isBlank).reverse.dropWhile isBlank).reverse

end Text

end PhasedArray
