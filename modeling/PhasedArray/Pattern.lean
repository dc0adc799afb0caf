import PhasedArray.SearchGrid
import PhasedArray.Weights

set_option autoImplicit false

/-!
# Beam patterns and their lobes (SPEC §4.8)

The pattern of a beam is the magnitude of its response, sampled on a grid.  The main
lobe starts at the global maximum and reaches, on either side, first to the nearest
sample below half power and from there on for as long as the samples fall.  What is
left of the pattern holds the side lobes.
-/

namespace PhasedArray

/-- A sampled pattern with what was measured on it. -/
structure Pattern (α : Type) where
  samples : List α
  grid : List α
  /-- The direction of the main lobe. -/
  direction : α
  /-- The width of the main lobe between its half-power edges. -/
  width : α
  /-- The largest sample outside the main lobe, zero if there is none. -/
  sideLevel : α
  /-- The largest sample. -/
  peak : α

namespace Pattern

variable {α : Type} [Scalar α] {n : Nat}

/-! ## Sampling -/

/-- The magnitude of the response toward `θ`. -/
@[inline] def arrayFactor (g : Geometry α) (w : Vector (Cplx α) g.size) (θ : α) : α :=
  (Weights.response w (g.steering θ)).abs

/-- The entries of a tensor as the weights of the array. -/
def weightsOf (g : Geometry α) (t : Tensor α) : Outcome α (Vector (Cplx α) g.size) :=
  if h : t.entries.size = g.size then .ok ⟨t.entries, h⟩
  else .error (.weightCount g.givenSize t.entries.size)

/-- The magnitudes of the responses toward several directions.  They come from one product
with a matrix, which ends in a product with one; an infinite response does not survive
it.  A single direction or element needs no such product. -/
def factors (g : Geometry α) (w : Vector (Cplx α) g.size) (directions : List α) : List α :=
  if directions.length < 2 ∨ g.size < 2 then directions.map (arrayFactor g w)
  else directions.map fun θ => (Weights.response w (g.steering θ) * 1).abs

/-- The pattern of a tensor of weights in directions as they were given, which are looked at
after the weights. -/
def arrayFactors (g : Geometry α) (t : Tensor α) (directions : Setting α) :
    Outcome α (List α) := do
  let t ← t.toComplex
  let w ← weightsOf g t
  let θ ← g.directionsAmong directions
  return factors g w θ

/-! ## The main lobe -/

/-- The place of the largest sample, the lowest on ties. -/
def peakPlace (h : 0 < n) (p : Vector α n) : Fin n :=
  match found : Scalar.argmax? p.toList with
  | some i => ⟨i, by simpa using Scalar.argmax?_lt found⟩
  | none => ⟨0, h⟩

/-- The nearest place from `i` down where the pattern is below `t`; the first place if
there is none. -/
def leftEdge (p : Vector α n) (t : α) : (i : Nat) → i < n → Fin n
  | 0, h => ⟨0, h⟩
  | i + 1, h => if t ≤ p[i + 1] then leftEdge p t i (by omega) else ⟨i + 1, h⟩

/-- The nearest place from `i` up where the pattern is below `t`; the last place if
there is none. -/
def rightEdge (p : Vector α n) (t : α) (i : Nat) (h : i < n) : Fin n :=
  if next : i + 1 < n then
    if t ≤ p[i] then rightEdge p t (i + 1) next else ⟨i, h⟩
  else ⟨i, h⟩
termination_by n - i

/-- The last place from `i` down to which the pattern keeps falling. -/
def leftNull (p : Vector α n) : (i : Nat) → i < n → Fin n
  | 0, h => ⟨0, h⟩
  | i + 1, h => if p[i] < p[i + 1] then leftNull p i (by omega) else ⟨i + 1, h⟩

/-- The last place from `i` up to which the pattern keeps falling. -/
def rightNull (p : Vector α n) (i : Nat) (h : i < n) : Fin n :=
  if next : i + 1 < n then
    if p[i + 1] < p[i] then rightNull p (i + 1) next else ⟨i, h⟩
  else ⟨i, h⟩
termination_by n - i

/-- The mean distance of neighbouring directions, zero for a single one. -/
def meanStep (h : 0 < n) (grid : Vector α n) : α :=
  if 1 < n then (grid[n - 1] - grid[0]) / Scalar.ofNat (n - 1) else 0

/-- The samples before place `l` and after place `r`. -/
def outside (p : Vector α n) (l r : Fin n) : List α :=
  ((List.finRange n).filter fun i => i < l || r < i).map p.get

/-- Measures a pattern. -/
def measure (h : 0 < n) (p grid : Vector α n) : Pattern α :=
  let i := peakPlace h p
  let peak := p.get i
  let threshold := peak / Scalar.sqrt 2
  let l := leftEdge p threshold i i.isLt
  let r := rightEdge p threshold i i.isLt
  { samples := p.toList
    grid := grid.toList
    direction := grid.get i
    width := Scalar.ofNat (r.val - l.val) * meanStep h grid
    sideLevel := (Scalar.maximum? (outside p (leftNull p l l.isLt) (rightNull p r r.isLt))).getD 0
    peak }

/-- Measures a pattern given as lists of samples and directions. -/
def analyze (samples grid : List α) : Outcome α (Pattern α) :=
  if h : samples.length = grid.length ∧ 0 < grid.length then
    .ok (measure h.2 ((Vec.ofList samples).cast h.1) (Vec.ofList grid))
  else .error .patternGrid

/-- Measures a pattern given as tensors, which have to be of one shape; bare numbers are
no pattern.  With several axes, the place of the largest sample is looked for along the
first, where a list stands if anything does. -/
def analyzeTensors (samples grid : Tensor α) : Outcome α (Pattern α) :=
  if samples.shape = grid.shape then
    match samples.shape, Scalar.argmax? samples.reals with
    | [], _ => .error .bareNumber
    | [_], _ => analyze samples.reals grid.reals
    | _ :: _ :: _, none => .error .patternGrid
    | rows :: _ :: _, some i => .error (if i < rows then .listInPlace else .placeMissing)
  else .error .patternGrid

/-- The pattern of a tensor of weights on a grid. -/
def onGrid (g : Geometry α) (grid : SearchGrid α) (t : Tensor α) : Outcome α (Pattern α) := do
  let t ← t.toComplex
  let w ← weightsOf g t
  let directions := grid.points.toList
  analyze (factors g w directions) directions

/-- The pattern of weights on a grid of `points` points. -/
def ofWeights (g : Geometry α) (points : Setting α) (t : Tensor α) : Outcome α (Pattern α) := do
  let grid ← SearchGrid.ofSetting points
  onGrid g grid t

/-- The side-lobe level in decibels below the peak; `none` stands for a level below
every other, where there is no side lobe or no peak. -/
def sideDecibels? (a : Pattern α) : Option α :=
  if a.sideLevel ≤ 0 ∨ a.peak ≤ 0 then none
  else some (20 * Scalar.log10 (a.sideLevel / a.peak))

end Pattern

end PhasedArray
