import PhasedArray.Reading

set_option autoImplicit false

/-!
# The array: a uniform line of elements (SPEC §4.1)

`size` elements stand on a line, `spacing` wavelengths apart.  A plane wave from
direction `θ`, measured from broadside, reaches each element with a phase that
grows by the same step from one element to the next; the vector of those phases is
the steering vector of the direction.

SPEC is the requirements document of the array engine; a header names the sections that its
module follows.
-/

namespace PhasedArray

/-- A uniform line of elements.  The two numbers are also kept as they were given,
for messages; everything else uses `size` and `spacing`. -/
structure Geometry (α : Type) [Scalar α] where
  size : Nat
  spacing : α
  size_pos : 0 < size
  spacing_pos : 0 < spacing
  givenSize : Setting α := .whole size
  givenSpacing : Setting α := .real spacing

namespace Geometry

variable {α : Type} [Scalar α]

/-- The whole number of elements that a value stands for. -/
def elementCount (s : Setting α) : Outcome α { size : Nat // 0 < size } := do
  let i ← s.toWhole "num_elements" (.elementCount s)
  if h : 0 < i.toNat then return ⟨i.toNat, h⟩ else throw (.elementCount s)

/-- The fault of a list in the place of a spacing.  A list of one number that is not finite
is refused as a spacing; any other is no number. -/
def listedSpacing (s : Setting α) : Outcome α (Fault α) := do
  let t ← s.toTensor
  if t.isAssorted then return .assortedEntries
  else if t.entries.size ≠ 1 then return .listForNumber
  else if t.isFinite then return .listInPlace
  else return .elementSpacing s

/-- The spacing that a value stands for. -/
def spacingOf (s : Setting α) : Outcome α { spacing : α // 0 < spacing } := do
  match s with
  | .list _ =>
      let e ← listedSpacing s
      throw e
  | s =>
      let d ← s.toKept "element_spacing"
      if h : 0 < d then
        if Scalar.isFinite d then return ⟨d, h⟩ else throw (.elementSpacing s)
      else throw (.elementSpacing s)

/-- The array described by two values; the spacing is looked at last. -/
def ofSettings (elements spacing : Setting α) : Outcome α (Geometry α) := do
  let ⟨size, size_pos⟩ ← elementCount elements
  let ⟨d, d_pos⟩ ← spacingOf spacing
  return ⟨size, d, size_pos, d_pos, elements, spacing⟩

/-- Elements half a wavelength apart, unless the caller says otherwise. -/
def defaultSpacing : Setting α := .real 0.5

/-- Whether the number of elements was written as a whole one. -/
def isCounted (g : Geometry α) : Bool :=
  match g.givenSize with
  | .number n => n.isWhole
  | _ => false

/-- Refuses an array whose elements cannot be counted off one by one. -/
def checkExtent (g : Geometry α) : Outcome α Unit := Extent.check Extent.countable g.size

/-- Two descriptions of the same array. -/
def sameArray (g h : Geometry α) : Bool :=
  g.size == h.size && g.givenSpacing.names h.givenSpacing

/-- The phase step between neighbouring elements for a wave from direction `θ`. -/
@[inline] def phaseStep (g : Geometry α) (θ : α) : α :=
  2 * Scalar.pi * g.spacing * Scalar.sin θ

/-- The phase of element `m` under the phase step `φ`, as a point of the unit circle. -/
@[inline] def element (φ : α) (m : Nat) : Cplx α := Cplx.cis (φ * Scalar.ofNat m)

/-- The steering vector of direction `θ`. -/
@[specialize] def steering (g : Geometry α) (θ : α) : Vector (Cplx α) g.size :=
  let φ := g.phaseStep θ
  Vector.ofFn fun m => element φ m

/-- The steering vectors of several directions, as columns. -/
@[specialize] def steeringMatrix {k : Nat} (g : Geometry α) (θ : Vector α k) :
    Mat (Cplx α) g.size k :=
  let φ := θ.map g.phaseStep
  Mat.of fun m j => element (φ.get j) m

/-- The steering vectors of a list of directions, as columns. -/
def steeringOf (g : Geometry α) (θ : List α) : Mat (Cplx α) g.size θ.length :=
  g.steeringMatrix (Vec.ofList θ)

/-- The phase step for a direction given as a switch, which is worked out in short numbers. -/
def shortPhaseStep (g : Geometry α) (θ : α) : α :=
  Scalar.short (Scalar.short (2 * Scalar.pi * g.spacing) * Scalar.short (Scalar.sin θ))

/-- The phase steps of a tensor of directions. -/
def phaseSteps (g : Geometry α) (θ : Tensor α) : Outcome α (Tensor α) :=
  if θ.isAssorted then .error .assortedEntries
  else if θ.kind.isFlags then .ok (θ.mapReal fun z => g.shortPhaseStep z.re)
  else .ok (θ.mapReal fun z => g.phaseStep z.re)

/-- The steering vector of a tensor of directions: the phases of each direction at the
element that its last axis runs along, which are those of all elements if it has none. -/
def steeringOfTensor (g : Geometry α) (θ : Tensor α) : Outcome α (Tensor α) := do
  let φ ← g.phaseSteps θ
  g.checkExtent
  let places : Tensor α := .ofReals ((List.range g.size).map Scalar.ofNat)
  match φ.combine? (fun φ m => Cplx.cis (φ.re * m.re)) places with
  | some a => return { a with kind := .complex }
  | none => throw .shapesDisagree

/-- The steering vector of a direction as it was given. -/
def steeringToward (g : Geometry α) (θ : Setting α) : Outcome α (Tensor α) := do
  let t ← θ.toTensor
  g.steeringOfTensor t

/-- The directions of a list as it was given, toward which the array has to have steering
vectors. -/
def directionsAmong (g : Geometry α) (θ : Setting α) : Outcome α (List α) := do
  let l ← θ.toReals
  g.checkExtent
  return l

theorem steering_getElem (g : Geometry α) (θ : α) (m : Nat) (h : m < g.size) :
    (g.steering θ)[m] = element (g.phaseStep θ) m := by
  simp [steering]

theorem steeringMatrix_apply {k : Nat} (g : Geometry α) (θ : Vector α k) (m : Fin g.size)
    (j : Fin k) : g.steeringMatrix θ m j = element (g.phaseStep (θ.get j)) m := by
  simp [steeringMatrix]

end Geometry

end PhasedArray
