import PhasedArray.Geometry
import PhasedArray.Peaks
import PhasedArray.SearchGrid
import PhasedArray.Subspace

set_option autoImplicit false

/-!
# Spectral search: directions that the noise subspace does not see (SPEC §4.4)

A direction from which a source sends is orthogonal to the noise subspace.  The
spectrum is the reciprocal of the squared length of a steering vector's part in the
noise subspace; its peaks on a grid are the estimates.  When the grid shows fewer
peaks than there are sources, fixed angles fill the remaining places.
-/

namespace PhasedArray

/-- A spectral search: its grid, the least length that is inverted, and the value
that stands for anything shorter.  The last two are kept as they were given, since a list
may hold one of them for each direction. -/
structure SpectralSearch (α : Type) where
  grid : SearchGrid α
  floor : Setting α
  sentinel : Setting α

namespace SpectralSearch

variable {α : Type} [Scalar α] {m n p : Nat}

/-- The default least length. -/
def defaultFloor : Setting α := .real 1e-10

/-- The default value for anything shorter. -/
def defaultSentinel : Setting α := .real 1e10

/-- The squared length of the part of `a` in the span of orthonormal columns. -/
@[specialize] def leakage (U : Mat (Cplx α) m p) (a : Vector (Cplx α) m) : α :=
  total p fun k => Scalar.sq (total m fun i => (U i k).conj * a.get i).abs

/-- The value that stands for anything too short, in each of `n` directions. -/
def sentinels (s : SpectralSearch α) (n : Nat) : Outcome α (Vector α n) := do
  let t ← s.sentinel.toReal
  match t.filling? [n] with
  | some values => return (values.map Cplx.re).cast (by simp [volume])
  | none => throw .shapesDisagree

/-- The least length that is inverted, in each of `n` directions.  Lists that stretch the
directions name places that there are none of. -/
def floors (s : SpectralSearch α) (n : Nat) : Outcome α (Vector α n) := do
  let t ← s.floor.toBounds "floor"
  match Tensor.commonShape? t.shape [n] with
  | none => throw .shapesDisagree
  | some wide =>
      if wide = [n] then return Vector.ofFn fun k => (t.stretched [n] k).re
      else throw .placeMissing

/-- The spectrum where a steering vector leaks by `e` into the noise: the reciprocal, unless
that is below the floor. -/
@[inline] def value (floor sentinel e : α) : α := if floor ≤ e then 1 / e else sentinel

/-- The spectrum in directions whose steering vectors leak into the noise. -/
def valuesOf (s : SpectralSearch α) (leaks : Vector α n) : Outcome α (Vector α n) := do
  let high ← s.sentinels n
  let low ← s.floors n
  return Vector.ofFn fun k => value (low.get k) (high.get k) (leaks.get k)

/-- The spectrum in the given directions. -/
@[specialize] def spectrumAt (s : SpectralSearch α) (g : Geometry α)
    (noise : Mat (Cplx α) g.size p) (θ : Vector α n) : Outcome α (Vector α n) :=
  s.valuesOf (θ.map fun θ => leakage noise (g.steering θ))

/-- The spectrum on the grid. -/
@[specialize] def spectrum (s : SpectralSearch α) (g : Geometry α)
    (noise : Mat (Cplx α) g.size p) : Outcome α (Vector α s.grid.size) :=
  s.spectrumAt g noise s.grid.points

/-- The angle that fills place `i` of `k` when there is no peak for it. -/
@[inline] def fallbackAngle (k : α) (i : Nat) : α :=
  -Scalar.pi / 4 + Scalar.ofNat i * Scalar.pi / (2 * k)

/-- The angles that fill `k` places. -/
def fallbackAngles (k : Nat) : List α := (List.range k).map (fallbackAngle (Scalar.ofNat k))

/-- The angles that fill a number of places, which need not be whole. -/
def fallbackAnglesOf (k : Setting α) : Outcome α (List α) := do
  let k ← k.toNumber "num_sources"
  let size ← SearchGrid.extentOf k
  return (List.range size).map (fallbackAngle k.value)

/-- The result of a search. -/
structure Found (α : Type) where
  angles : List α
  spectrum : List α
  peaks : Nat

/-- Searches for `k` directions in a spectrum on the grid. -/
@[specialize] def findIn (s : SpectralSearch α) (k : Nat) (spectrum : Vector α s.grid.size) :
    Found α :=
  let peaks := Peaks.strongest Peaks.defaultFraction k spectrum
  { angles :=
      peaks.map (fun i : Fin s.grid.size => s.grid.point i) ++ (fallbackAngles k).drop peaks.length
    spectrum := spectrum.toList
    peaks := peaks.length }

/-- Searches for the directions of a decomposition. -/
def find (s : SpectralSearch α) (g : Geometry α) (D : Decomposition α g.size) :
    Outcome α (Found α) := do
  let values ← s.spectrum g D.noise
  return s.findIn D.sources values

theorem length_fallbackAngles (k : Nat) : (fallbackAngles (α := α) k).length = k := by
  simp [fallbackAngles]

/-- There are as many angles as are asked for. -/
theorem length_angles_findIn (s : SpectralSearch α) (k : Nat) (spectrum : Vector α s.grid.size) :
    (s.findIn k spectrum).angles.length = k := by
  rw [findIn, List.length_append, List.length_map, List.length_drop, length_fallbackAngles,
    Nat.add_sub_cancel' (Peaks.length_strongest_le _ k spectrum)]

end SpectralSearch

end PhasedArray
