set_option autoImplicit false

/-!
# Machine words: whole numbers of 64 bits

Arrays of whole numbers are added and multiplied in words.  A result that no word of
its kind holds leaves its remainder, so a sum of products may be worked out in full
and brought back into range once, at its end.
-/

namespace PhasedArray

/-- The kinds of word: with a sign, or without. -/
inductive Word where
  | signed
  | unsigned
  deriving DecidableEq, Repr, Inhabited

namespace Word

/-- The number of words. -/
def count : Nat := Nat.pow 2 64

/-- Whether a word of the kind holds the number. -/
def holds : Word → Int → Bool
  | signed, i => -(count / 2 : Nat) ≤ i && i < (count / 2 : Nat)
  | unsigned, i => 0 ≤ i && i < count

/-- What a word of the kind keeps of a number. -/
def wrap : Word → Int → Int
  | signed, i => i.bmod count
  | unsigned, i => i % count

/-- The kind of word in which a number is kept: with a sign if that holds it. -/
def kindOf? (i : Int) : Option Word :=
  if signed.holds i then some signed else if unsigned.holds i then some unsigned else none

/-- The kind of word for the products of two lists, from the kinds that keep those.  Switches
have none of their own and go with either; two kinds of word have none in common. -/
def shared? : Option Word → Option Word → Option (Option Word)
  | none, w | w, none => some w
  | some v, some w => if v = w then some (some w) else none

/-- What a word of the kind keeps of a sum. -/
def sum (w : Word) (terms : List Int) : Int := w.wrap (terms.foldr (· + ·) 0)

end Word

end PhasedArray
