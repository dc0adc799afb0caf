import PhasedArray.Weights

set_option autoImplicit false

/-!
# Phase shifters: weights by phase alone (SPEC §4.7)

A phase shifter of `b` bits has `2 ^ b` levels, evenly spaced over the full turn.  A
phase goes to the nearest level; the level at the end of the turn is the one at its
start.
-/

namespace PhasedArray

namespace PhaseShifter

variable {α : Type} [Scalar α]

/-- The full turn. -/
@[inline] def turn : α := 2 * Scalar.pi

/-- An angle as a phase in `[0, 2π)`.  A small negative angle may round to the full turn,
which is zero. -/
@[inline] def wrap (angle : α) : α :=
  let x := Scalar.modulo angle turn
  if turn ≤ x then 0 else x

/-- The phase of a weight. -/
@[inline] def phase (z : Cplx α) : α := wrap z.arg

/-- The phases of weights; a bare number is not a list of weights. -/
def phases (t : Tensor α) : Outcome α (Tensor α) :=
  if t.isTextual then .error .assortedEntries
  else if t.isAssorted then .error .phaseMissing
  else if t.rank = 0 then .error .bareNumber
  else .ok (t.mapReal phase)

/-- The number of levels of `bits` bits, by squaring half as many bits. -/
def levels (bits : Nat) : α :=
  if bits = 0 then 1
  else
    let half : α := levels (bits / 2)
    if bits % 2 = 0 then half * half else 2 * (half * half)
termination_by bits

/-- The distance between the levels of `bits` bits. -/
@[inline] def step (bits : Nat) : α := turn / levels bits

/-- Whether a phase is the full turn up to rounding. -/
@[inline] def nearTurn (x : α) : Bool := decide (Scalar.abs (x - turn) ≤ 1e-8 + 1e-5 * turn)

/-- The level nearest to a phase; half-way between two levels, the even one. -/
@[inline] def quantize (bits : Nat) (x : α) : α :=
  let level := Scalar.modulo (Scalar.roundEven (x / step bits) * step bits) turn
  if nearTurn level then 0 else level

/-- Reads a number of bits.  Levels beyond the range of the scalars cannot be told
apart. -/
def bits (given : Setting α) : Outcome α Nat := do
  let i ← given.toWhole "bits" (.quantizerBits given)
  if i < 0 then throw (.quantizerBits given)
  if Scalar.isFinite (levels i.toNat : α) then return i.toNat else throw .powerTooLarge

/-- The levels nearest to phases, which are looked at after the bits; a bare number is not a
list of phases. -/
def quantizeAll (given phases : Setting α) : Outcome α (Tensor α) := do
  let b ← bits given
  let t ← phases.toReal
  if t.rank = 0 then throw .bareNumber
  return t.mapReal fun z => quantize b z.re

/-- The weights of unit power with the given phases. -/
def weightsOf {n : Nat} (phases : Vector α n) : Outcome α (Vector (Cplx α) n) :=
  Weights.normalize (phases.map Cplx.cis)

/-- The weights of unit power with the given phases, one for each element. -/
def weights (g : Geometry α) (phases : Setting α) : Outcome α (Vector (Cplx α) g.size) := do
  let t ← phases.toReal
  match t.asVectorOf? g.size with
  | some x => weightsOf (x.map Cplx.re)
  | none => throw (.phaseCount g.givenSize t.shape)

/-- The phase-only weights nearest to given weights. -/
def quantizedWeights (g : Geometry α) (t : Tensor α) (given : Setting α) :
    Outcome α (Vector (Cplx α) g.size) := do
  let φ ← phases t
  let ψ ← quantizeAll given (.tensor φ)
  weights g (.tensor ψ)

end PhaseShifter

end PhasedArray
