set_option autoImplicit false

/-!
# Scalars: the real numbers a computation runs on

Every formula of this library is written once, over any type that carries the
operations of `Scalar`.  Read over `Float` the formulas are a program; read over
the real numbers the same formulas are statements of array theory.  Nothing here
assumes a law: a scalar type may have values that no order reaches (`isNaN`) and
values beyond every bound (`isFinite` false), and a formula that treats such
values in a particular way says so where it is written.

The arithmetic instances below have low priority, so that a type with arithmetic
of its own keeps it.  Those for numerals come last of all, behind the numerals that
a type has because it counts.
-/

namespace PhasedArray

/-- The operations of a real number line, ideal or approximate. -/
class Scalar (α : Type) where
  zero : α
  one : α
  ofNat : Nat → α
  ofScientific : Nat → Bool → Nat → α
  add : α → α → α
  sub : α → α → α
  mul : α → α → α
  div : α → α → α
  neg : α → α
  lt : α → α → Prop
  le : α → α → Prop
  decLt : ∀ x y : α, Decidable (lt x y)
  decLe : ∀ x y : α, Decidable (le x y)
  /-- Neither infinite nor undefined. -/
  isFinite : α → Bool
  /-- The ratio of a circle's circumference to its diameter. -/
  pi : α
  sqrt : α → α
  exp : α → α
  log : α → α
  log10 : α → α
  /-- `pow b x` is `b` raised to the power `x`. -/
  pow : α → α → α
  sin : α → α
  cos : α → α
  arcsin : α → α
  /-- `atan2 y x` is the angle of the point `(x, y)`, in `(-π, π]`. -/
  atan2 : α → α → α
  /-- `hypot x y` is the length of the vector `(x, y)`. -/
  hypot : α → α → α
  /-- The nearest whole number; halves go to the even neighbour. -/
  roundEven : α → α
  /-- `modulo x y` is the remainder of `x` by `y`, with the sign of `y`. -/
  modulo : α → α → α
  /-- The whole number next to a finite value on the side of zero. -/
  truncate : α → Int
  /-- The nearest number of eleven binary digits. -/
  short : α → α

namespace Scalar

variable {α : Type} [Scalar α]

instance (priority := low) : Zero α := ⟨Scalar.zero⟩
instance (priority := low) : One α := ⟨Scalar.one⟩
instance (priority := 50) instOfNat (n : Nat) : OfNat α n := ⟨Scalar.ofNat n⟩
instance (priority := low) instOfScientific : OfScientific α := ⟨Scalar.ofScientific⟩
instance (priority := low) : Add α := ⟨Scalar.add⟩
instance (priority := low) : Sub α := ⟨Scalar.sub⟩
instance (priority := low) : Mul α := ⟨Scalar.mul⟩
instance (priority := low) : Div α := ⟨Scalar.div⟩
instance (priority := low) : Neg α := ⟨Scalar.neg⟩
instance (priority := low) : LT α := ⟨Scalar.lt⟩
instance (priority := low) : LE α := ⟨Scalar.le⟩
instance (priority := low) instDecidableLt (x y : α) : Decidable (x < y) := Scalar.decLt x y
instance (priority := low) instDecidableLe (x y : α) : Decidable (x ≤ y) := Scalar.decLe x y

/-! ## Values without a place in the order -/

/-- A value that is not even equal to itself. -/
@[inline] def isNaN (x : α) : Bool := !decide (x ≤ x)

/-- Equal in the order of the scalars: neither value lies above the other. -/
@[inline] def same (x y : α) : Bool := decide (x ≤ y) && decide (y ≤ x)

/-- Ascending order in which undefined values come last. -/
@[inline] def sortLe (x y : α) : Bool := decide (x ≤ y) || isNaN y

/-- The quotient of zero by zero; where such a value exists it is an undefined one. -/
@[inline] def undefined : α := 0 / 0

/-! ## Derived operations -/

/-- Distance from zero. -/
@[inline] def abs (x : α) : α := if x < 0 then -x else x

/-- The square. -/
@[inline] def sq (x : α) : α := x * x

/-- `x`, but not below `floor`. -/
@[inline] def atLeast (floor x : α) : α := if x < floor then floor else x

/-- `x`, held between `low` and `high`. -/
@[inline] def clamp (low high x : α) : α :=
  if x < low then low else if high < x then high else x

/-- The larger of two values; an undefined value outweighs every other. -/
@[inline] def maxNaN (x y : α) : α :=
  if isNaN x then x else if isNaN y then y else if x < y then y else x

/-- The whole number `i` as a scalar. -/
def ofInt (i : Int) : α :=
  match i with
  | .ofNat n => Scalar.ofNat n
  | .negSucc n => -Scalar.ofNat (n + 1)

/-- The distance from one to the next larger binary number of 53 digits. -/
def ulpOfOne : α := 1 / Scalar.ofNat (Nat.pow 2 52)

/-- Radians to degrees. -/
@[inline] def toDegrees (x : α) : α := x * (180 / Scalar.pi)

/-- Degrees to radians. -/
@[inline] def toRadians (x : α) : α := x * (Scalar.pi / 180)

/-! ## Lists of scalars -/

/-- The sum, from the left. -/
@[specialize] def sum (xs : List α) : α := xs.foldl (· + ·) 0

/-- The arithmetic mean. -/
@[specialize] def mean (xs : List α) : α := sum xs / Scalar.ofNat xs.length

/-- The values in ascending order, undefined ones last. -/
@[specialize] def sorted (xs : List α) : List α := xs.mergeSort sortLe

/-- The largest value; `none` for the empty list. -/
@[specialize] def maximum? : List α → Option α
  | [] => none
  | x :: xs => some (xs.foldl maxNaN x)

/-- `beats y x` says that `y` displaces `x` as the value to point at: it is larger,
or it is the first undefined one. -/
@[inline] def beats (y x : α) : Bool := decide (x < y) || (isNaN y && !isNaN x)

/-- Scans the rest of a list for the place of its largest value. -/
@[specialize] def argmaxFrom : (place : Nat) → (best : α) → (next : Nat) → List α → Nat
  | place, _, _, [] => place
  | place, best, next, x :: xs =>
      if beats x best then argmaxFrom next x (next + 1) xs
      else argmaxFrom place best (next + 1) xs

/-- The lowest place of the largest value, or of the first undefined value if there
is one; `none` for the empty list. -/
@[specialize] def argmax? : List α → Option Nat
  | [] => none
  | x :: xs => some (argmaxFrom 0 x 1 xs)

/-- The lowest place of the smallest value, or of the first undefined value if
there is one; `none` for the empty list. -/
@[specialize] def argmin? (xs : List α) : Option Nat := argmax? (xs.map (- ·))

theorem argmaxFrom_lt (place : Nat) (best : α) (next : Nat) (xs : List α) (h : place < next) :
    argmaxFrom place best next xs < next + xs.length := by
  induction xs generalizing place best next with
  | nil => simpa [argmaxFrom] using h
  | cons x xs ih =>
    simp only [argmaxFrom, List.length_cons]
    split
    · have := ih next x (next + 1) (Nat.lt_succ_self next)
      omega
    · have := ih place best (next + 1) (Nat.lt_succ_of_lt h)
      omega

theorem argmax?_lt {xs : List α} {i : Nat} (h : argmax? xs = some i) : i < xs.length := by
  cases xs with
  | nil => simp [argmax?] at h
  | cons x xs =>
    simp only [argmax?, Option.some.injEq] at h
    subst h
    have := argmaxFrom_lt 0 x 1 xs Nat.one_pos
    simp only [List.length_cons]
    omega

theorem argmax?_isSome_iff (xs : List α) : (argmax? xs).isSome ↔ xs ≠ [] := by
  cases xs <;> simp [argmax?]

end Scalar

end PhasedArray
