import PhasedArray.Decimal.Rounded

set_option autoImplicit false

/-!
# The shortest decimal of a float

Among the decimals that lie nearer to a given float than to any other, the one
with the fewest digits, and of those the nearest.  A float owns an interval of
real numbers, half-way to each neighbour; the ends belong to it when its
significand is even.  Grids of one, two, ... digits are tried in turn, and on each
only the two points beside the number can be the answer.
-/

namespace PhasedArray

namespace Decimal

/-- The interval a float owns, in quarters of its last binary digit:
the number itself, the lower end and the upper end. -/
structure Span where
  middle : Nat
  low : Nat
  high : Nat
  closed : Bool
  deriving Repr

/-- The interval of `d`, in units of `2 ^ (d.exponent - 2)`.  Below a power of two
the next float is only half as far away as above it. -/
def Span.of (d : Dyadic) : Span :=
  let below :=
    if d.digits = Dyadic.fullSignificand ∧ Dyadic.lowestExponent < d.exponent then 1 else 2
  { middle := 4 * d.digits
    low := 4 * d.digits - below
    high := 4 * d.digits + 2
    closed := d.digits % 2 = 0 }

/-- Whether the point lies in the interval. -/
def Span.contains (s : Span) (x : Nat) : Bool :=
  if s.closed then s.low ≤ x && x ≤ s.high else s.low < x && x < s.high

/-- The point of the grid `10 ^ unit` that lies in the interval of `d` nearest to
it, counted in grid steps; `none` if the grid has no point there. -/
def gridPoint? (d : Dyadic) (unit : Int) : Option Nat :=
  let span := Span.of d
  let twos := (2 - d.exponent).toNat
  let tens := (-unit).toNat
  let scale := Nat.pow 2 (d.exponent - 2 + twos).toNat * Nat.pow 10 tens
  let step := Nat.pow 10 (unit + tens).toNat * Nat.pow 2 twos
  let wide : Span :=
    ⟨span.middle * scale, span.low * scale, span.high * scale, span.closed⟩
  let below := wide.middle / step
  let above := below + 1
  match wide.contains (below * step), wide.contains (above * step) with
  | true, true =>
      if 2 * wide.middle ≤ (below + above) * step then some below else some above
  | true, false => some below
  | false, true => some above
  | false, false => none

/-- Tries grids of `count`, `count + 1`, ... significant digits, `fuel` of them. -/
def shortestFrom (d : Dyadic) (power : Int) : (fuel : Nat) → (count : Nat) → Decimal
  | 0, count => roundAt (power - count) d
  | fuel + 1, count =>
      match gridPoint? d (power - count) with
      | some n => ⟨d.negative, n, power - count⟩
      | none => shortestFrom d power fuel (count + 1)

/-- The shortest decimal that reads back as `d`; seventeen digits always do. -/
def shortest (d : Dyadic) : Decimal :=
  if d.digits = 0 then ⟨d.negative, 0, 0⟩
  else shortestFrom d (leadingPower d) 16 0

/-- Plain notation for leading digits from the fourth place after the point to the
sixteenth before it, a point in every number, and exponents of two digits or more. -/
def roundTripLayout : Layout :=
  { lowest := -4, highest := 15, pointZero := true, exponentPlus := true, exponentWidth := 2 }

/-- A float as the shortest text that reads back as it. -/
def shortestText (x : Float) : String :=
  match Dyadic.ofFloat? x with
  | some d => (shortest d).render roundTripLayout
  | none => if x.isNaN then "nan" else if x < 0 then "-inf" else "inf"

end Decimal

end PhasedArray
