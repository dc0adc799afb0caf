import PhasedArray.Reading

set_option autoImplicit false

/-!
# Search grids: evenly spaced directions (SPEC §4.1)

A grid divides the half turn from `-π/2` to `π/2` into equal steps and has a point
at the start of each.  The number of steps need not be whole: the last step then
reaches beyond the half turn.
-/

namespace PhasedArray

/-- Directions `-π/2 + i * π / steps` for `i < size`. -/
structure SearchGrid (α : Type) where
  size : Nat
  steps : α

namespace SearchGrid

variable {α : Type} [Scalar α]

/-- The number of points unless the caller says otherwise: half a degree apart. -/
def defaultPoints : Setting α := .whole 360

/-- The number of points that `n` steps take, counted off one by one. -/
def extentOf (n : Number α) : Outcome α Nat := do
  if !Scalar.isFinite n.value then throw .undefinedNumber
  Extent.check Extent.countable n.ceil.toNat
  return n.ceil.toNat

/-- The grid of `n` whole steps. -/
def ofNat (n : Nat) : SearchGrid α := ⟨n, Scalar.ofNat n⟩

/-- The grid of a number of steps. -/
def ofSetting (s : Setting α) : Outcome α (SearchGrid α) := do
  let n ← s.toNumber "num_points"
  if n.atMostZero then throw (.gridSize s)
  let size ← extentOf n
  return ⟨size, n.value⟩

/-- The angle between neighbouring points. -/
def resolution (g : SearchGrid α) : α := Scalar.pi / g.steps

/-- The direction of point `i`. -/
@[inline] def point (g : SearchGrid α) (i : Nat) : α :=
  -Scalar.pi / 2 + Scalar.ofNat i * Scalar.pi / g.steps

/-- All directions, in ascending order. -/
def points (g : SearchGrid α) : Vector α g.size := Vector.ofFn fun i => g.point i

@[simp] theorem points_getElem (g : SearchGrid α) (i : Nat) (h : i < g.size) :
    g.points[i] = g.point i := by
  simp [points]

end SearchGrid

end PhasedArray
