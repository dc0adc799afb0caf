import PhasedArray.Decimal.Shortest
import PhasedArray.Scalar.Float
import PhasedArray.Word

set_option autoImplicit false

/-!
# Numbers as they were given

A caller may write a count as `8` or as `8.0`.  Both mean eight elements, but a
message repeats the number as it was written, so the two stay apart until a
computation needs the value.
-/

namespace PhasedArray

/-- A number as it was given: a whole number, or a scalar. -/
inductive Number (α : Type) where
  | whole (i : Int)
  | real (x : α)
  deriving Repr, Inhabited

namespace Number

variable {α : Type} [Scalar α]

/-- The value. -/
@[inline] def value : Number α → α
  | whole i => Scalar.ofInt i
  | real x => x

/-- What stands in the way of reading a number as a whole one. -/
inductive NoWhole where
  | undefined
  | infinite
  deriving DecidableEq, Repr

/-- The whole number next to the given one on the side of zero. -/
def truncate : Number α → Except NoWhole Int
  | whole i => .ok i
  | real x =>
      if Scalar.isFinite x then .ok (Scalar.truncate x)
      else if Scalar.isNaN x then .error .undefined
      else .error .infinite

/-- Whether the number is the whole number `i`. -/
def equals (i : Int) : Number α → Bool
  | whole k => k == i
  | real x => Scalar.same x (Scalar.ofInt i)

/-- Whether the number is at most zero. -/
def atMostZero : Number α → Bool
  | whole i => i ≤ 0
  | real x => x ≤ 0

/-- Whether the number is below zero. -/
def belowZero : Number α → Bool
  | whole i => i < 0
  | real x => x < 0

/-- Whether the number is below one. -/
def belowOne : Number α → Bool
  | whole i => i < 1
  | real x => x < 1

/-- The least whole number that is not below a finite number. -/
def ceil : Number α → Int
  | whole i => i
  | real x =>
      let t := Scalar.truncate x
      if Scalar.ofInt t < x then t + 1 else t

/-- Whether a whole number is below a scalar.  Finite ones are compared as whole numbers,
so that nothing is rounded. -/
def wholeBelow (i : Int) (x : α) : Bool :=
  if Scalar.isFinite x then i < (real x).ceil else decide (0 < x)

/-- Whether the number is below another. -/
def below : Number α → Number α → Bool
  | whole i, whole k => i < k
  | whole i, real x => wholeBelow i x
  | real x, whole i => wholeBelow (-i) (-x)
  | real x, real y => x < y

/-- Whether two numbers are the same number. -/
def same : Number α → Number α → Bool
  | whole i, whole k => i == k
  | whole i, real x | real x, whole i =>
      Scalar.isFinite x && Scalar.truncate x == i && Scalar.same x (Scalar.ofInt i)
  | real x, real y => Scalar.same x y

/-- Whether the number was written as a whole one. -/
def isWhole : Number α → Bool
  | whole _ => true
  | real _ => false

/-- The number of things that a number written as a whole one counts; none for any
other. -/
def count : Number α → Nat
  | whole i => i.toNat
  | real _ => 0

/-- Whether the number fits where numbers are kept: a whole one in a machine word. -/
def isKept : Number α → Bool
  | whole i => (Word.kindOf? i).isSome
  | real _ => true

/-- The value of the product with a whole number. -/
def times (n : Number α) (k : Int) : α :=
  match n with
  | whole i => Scalar.ofInt (i * k)
  | real x => x * Scalar.ofInt k

/-- The value as a scalar; none for a whole number beyond the range of the scalars. -/
def scalar? : Number α → Option α
  | whole i =>
      let x : α := Scalar.ofInt i
      if Scalar.isFinite x then some x else none
  | real x => some x

/-- The quotient by a count, unless it lies beyond the range of the scalars.  A whole number
may lie beyond it where its quotient does not. -/
def dividedBy (n : Number α) (count : Nat) : Option α :=
  match n.scalar?, n with
  | some x, _ => some (x / Scalar.ofNat count)
  | none, whole i => (whole (i / count)).scalar?
  | none, real _ => none

/-- The sum, unless a whole number lies beyond the range of the scalars. -/
def add? : Number α → Number α → Option (Number α)
  | whole i, whole k => some (whole (i + k))
  | x, y => do return real ((← x.scalar?) + (← y.scalar?))

/-- The product, unless a whole number lies beyond the range of the scalars. -/
def mul? : Number α → Number α → Option (Number α)
  | whole i, whole k => some (whole (i * k))
  | x, y => do return real ((← x.scalar?) * (← y.scalar?))

/-- The text of a number: a whole number in full, any other as the shortest decimal
that reads back. -/
def text : Number Float → String
  | whole i => toString i
  | real x => Decimal.shortestText x

@[simp] theorem truncate_whole (i : Int) : (whole i : Number α).truncate = .ok i := rfl

@[simp] theorem equals_whole (i k : Int) : (whole k : Number α).equals i = (k == i) := rfl

end Number

end PhasedArray
