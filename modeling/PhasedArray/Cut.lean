set_option autoImplicit false

/-!
# Cutting a list at a signed place

A place counts from the front if it is not negative, and from the end otherwise.
-/

namespace PhasedArray

/-- The number of entries before place `i` of a list of length `n`. -/
def cutLength (n : Nat) : Int → Nat
  | .ofNat k => min k n
  | .negSucc k => n - (k + 1)

/-- The part of the list before place `i`. -/
def cutTake {β : Type} (i : Int) (xs : List β) : List β := xs.take (cutLength xs.length i)

/-- The part of the list from place `i` on. -/
def cutDrop {β : Type} (i : Int) (xs : List β) : List β := xs.drop (cutLength xs.length i)

@[simp] theorem cutTake_natCast {β : Type} (k : Nat) (xs : List β) :
    cutTake (k : Int) xs = xs.take k := by
  show xs.take (min k xs.length) = xs.take k
  exact List.take_eq_take_iff.2 (by omega)

end PhasedArray
