set_option autoImplicit false

/-!
# Code points

A text may be handed over with half of a surrogate pair in it, which is a code point but no
character.  The last private characters stand for those halves, so that a text with one can
be kept and shown as it came.
-/

namespace PhasedArray

namespace Text

/-- The first half of a pair that there is. -/
def firstHalf : Nat := 0xD800

/-- The first code point after the halves of pairs. -/
def afterHalves : Nat := 0xE000

/-- The first character that stands for half of a pair. -/
def firstStandIn : Nat := 0x10F800

/-- The character that stands for a code point. -/
def ofCodePoint (n : Nat) : Char :=
  if firstHalf ≤ n ∧ n < afterHalves then Char.ofNat (firstStandIn + (n - firstHalf))
  else Char.ofNat n

/-- The code point that a character stands for. -/
def codePoint (c : Char) : Nat :=
  if firstStandIn ≤ c.toNat then c.toNat - firstStandIn + firstHalf else c.toNat

end Text

end PhasedArray
