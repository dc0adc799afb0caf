import PhasedArray.Scalar

set_option autoImplicit false

/-!
# The error of a set of angles (SPEC §4.6)

Estimated and true angles are compared as sets: both are sorted and paired in
order, and the error is the root of the mean squared difference.  Sets of different
size have no pairing; their error is larger than any other.
-/

namespace PhasedArray

/-- The error between two sets of angles. -/
inductive AngleError (α : Type) where
  /-- The sets differ in size. -/
  | unmatched
  /-- The root mean square of the differences. -/
  | rms (x : α)
  deriving Repr

namespace AngleError

variable {α : Type} [Scalar α]

/-- The squared differences of paired angles. -/
@[inline] def squares (xs ys : List α) : List α := List.zipWith (fun x y => Scalar.sq (x - y)) xs ys

/-- The error of `estimated` against `actual`. -/
def between (estimated actual : List α) : AngleError α :=
  if estimated.length = actual.length then
    if actual.isEmpty then .rms 0
    else .rms (Scalar.sqrt (Scalar.mean (squares (Scalar.sorted estimated) (Scalar.sorted actual))))
  else .unmatched

/-- Whether the error is below a bound. -/
def below (bound : α) : AngleError α → Bool
  | unmatched => false
  | rms x => x < bound

/-- The error as a number, infinite for sets of different size. -/
def value : AngleError α → α
  | unmatched => 1 / 0
  | rms x => x

/-- The value, if there is one. -/
def value? : AngleError α → Option α
  | unmatched => none
  | rms x => some x

/-- The mean of errors; one unmatched error makes the mean unmatched. -/
def mean (errors : List (AngleError α)) : AngleError α :=
  match errors.mapM value? with
  | some xs => .rms (Scalar.mean xs)
  | none => .unmatched

theorem between_eq_unmatched_iff (xs ys : List α) :
    between xs ys = .unmatched ↔ xs.length ≠ ys.length := by
  unfold between
  split
  · split <;> simp_all
  · simp_all

end AngleError

end PhasedArray
