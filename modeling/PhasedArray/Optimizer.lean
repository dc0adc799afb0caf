import PhasedArray.Pattern
import PhasedArray.Settings

set_option autoImplicit false

/-!
# The optimizer: gradient ascent on the sphere of unit power (SPEC §4.8)

The objective rewards the response toward the target and charges for the responses
toward the interferers.  Each iteration takes a step along the gradient, the steps
shrinking like the harmonic series, and scales the weights back to unit power.  A run
starts from the matched filter unless the caller gives weights; it converges once the
target response reaches the threshold, and otherwise ends with the budget, handing
back the best weights it has seen.

The threshold is looked at after a step (SPEC §4.8, step 3), so a start that already reaches it
does not converge by that alone.  Interferers close to the target are part of the result here;
the warning about them (SPEC §8) is left out.
-/

namespace PhasedArray

/-! ## The objective -/

/-- What a run climbs: a target, `k` interferers, the charge for them and the first
step. -/
structure Ascent (α : Type) (m k : Nat) where
  target : Vector (Cplx α) m
  interferers : Mat (Cplx α) m k
  penalty : α
  stepSize : Number α

namespace Ascent

variable {α : Type} [Scalar α] {m k : Nat} (A : Ascent α m k)

/-- Whether interferers are charged for at all. -/
def isCharged : Bool := k != 0 && !Scalar.same A.penalty 0

/-- The magnitude of the response toward the target. -/
def targetResponse (w : Vector (Cplx α) m) : α := (Weights.response w A.target).abs

/-- The responses toward the interferers. -/
def interference (w : Vector (Cplx α) m) : Vector (Cplx α) k := A.interferers.vecMul w

/-- The squared target response less the charge for the squared interference. -/
def objective (w : Vector (Cplx α) m) : α :=
  let gain := Scalar.sq (A.targetResponse w)
  if A.isCharged then
    let r := A.interference w
    gain - A.penalty * total k fun i => Scalar.sq (r.get i).abs
  else gain

/-- The direction of steepest ascent of the objective. -/
def gradient (w : Vector (Cplx α) m) : Vector (Cplx α) m :=
  let r := Weights.response w A.target
  let toward := A.target.map fun a => a.conj * r
  if A.isCharged then
    let away := A.interferers.conj.mulVec (A.interference w)
    Vector.ofFn fun i => toward.get i - (away.get i).scale A.penalty
  else toward

/-- The weights after iteration `i`, counted from zero. -/
def advance (i : Nat) (w : Vector (Cplx α) m) : Outcome α (Vector (Cplx α) m) := do
  let rate ← A.stepSize.toQuotient (i + 1)
  let g := A.gradient w
  Weights.normalize (Vector.ofFn fun j => w.get j + (g.get j).scale rate)

end Ascent

/-! ## Runs -/

/-- The state of a run: the current weights, the best ones so far, the number of
iterations, and the target response after each of them. -/
structure Run (α : Type) (m : Nat) where
  weights : Vector (Cplx α) m
  best : Vector (Cplx α) m
  bestObjective : α
  iterations : Nat
  history : List α

/-- A run that has ended. -/
structure Finished (α : Type) (m : Nat) where
  run : Run α m
  converged : Bool

namespace Run

variable {α : Type} [Scalar α] {m k : Nat}

/-- The state before the first iteration. -/
def start (A : Ascent α m k) (w : Vector (Cplx α) m) : Run α m := ⟨w, w, A.objective w, 0, []⟩

/-- The state after iteration `i`, counted from zero, which leads to the weights `w`. -/
def extend (A : Ascent α m k) (i : Nat) (run : Run α m) (w : Vector (Cplx α) m) : Run α m :=
  let value := A.objective w
  let history := run.history ++ [A.targetResponse w]
  if run.bestObjective < value then ⟨w, w, value, i + 1, history⟩
  else { run with weights := w, iterations := i + 1, history }

section Extend

variable (A : Ascent α m k) (i : Nat) (run : Run α m) (w : Vector (Cplx α) m)

@[simp] theorem extend_weights : (run.extend A i w).weights = w := by
  unfold extend
  dsimp only
  split <;> rfl

@[simp] theorem extend_iterations : (run.extend A i w).iterations = i + 1 := by
  unfold extend
  dsimp only
  split <;> rfl

@[simp] theorem extend_history :
    (run.extend A i w).history = run.history ++ [A.targetResponse w] := by
  unfold extend
  dsimp only
  split <;> rfl

end Extend

/-- Iterates until the target response reaches the threshold, `budget` times at most;
`i` counts the iterations before. -/
def climb (A : Ascent α m k) (threshold : α) :
    (budget i : Nat) → Run α m → Outcome α (Finished α m)
  | 0, _, run => .ok ⟨run, false⟩
  | budget + 1, i, run =>
      match A.advance i run.weights with
      | .error e => .error e
      | .ok w =>
          let next := run.extend A i w
          if threshold ≤ A.targetResponse w then .ok ⟨next, true⟩
          else climb A threshold budget (i + 1) next

end Run

/-- The weights a run hands back: the current ones if it converged, else the best. -/
def Finished.weights {α : Type} {m : Nat} (f : Finished α m) : Vector (Cplx α) m :=
  if f.converged then f.run.weights else f.run.best

/-- The run of at most `budget` iterations from the weights `w`. -/
def Run.climbFrom {α : Type} [Scalar α] {m k : Nat} (A : Ascent α m k) (threshold : α)
    (budget : Nat) (w : Vector (Cplx α) m) : Outcome α (Finished α m) :=
  climb A threshold budget 0 (start A w)

/-! ## Requests -/

/-- What a caller asks of the optimizer; the values are read as they are needed. -/
structure BeamRequest (α : Type) where
  elements : Setting α
  target : Setting α
  interferers : Setting α
  threshold : Setting α
  budget : Setting α
  spacing : Setting α
  start : Setting α

/-- The names a request accepts. -/
def BeamRequest.names : List String :=
  ["element_count", "target_direction", "interference_angles", "snr_threshold", "max_iterations",
    "element_spacing", "initial_weights"]

/-- Reads a request. -/
def BeamRequest.ofSettings {α : Type} [Scalar α] (s : Settings α) : Outcome α (BeamRequest α) := do
  s.checkNames names
  let elements ← s.required "element_count"
  let target ← s.required "target_direction"
  return {
    elements
    target
    interferers := s.get "interference_angles" (.list [])
    threshold := s.get "snr_threshold" .nothing
    budget := s.get "max_iterations" .nothing
    spacing := s.get "element_spacing" Geometry.defaultSpacing
    start := s.get "initial_weights" .nothing }

/-- An optimized beam. -/
structure Beam (α : Type) where
  weights : List (Cplx α)
  pattern : Pattern α
  iterations : Nat
  converged : Bool
  targetResponse : α
  history : List α
  /-- Interferers too close to the target to be told apart from it. -/
  overlapping : List α

/-- A request that has been read: the array and the directions of the interferers, what a run
climbs and where it starts, how long it may take and what it has to reach. -/
structure Plan (α : Type) [Scalar α] where
  geometry : Geometry α
  interferers : List α
  ascent : Ascent α geometry.size interferers.length
  start : Vector (Cplx α) geometry.size
  budget : Nat
  threshold : Setting α
  /-- Interferers too close to the target to be told apart from it. -/
  overlapping : List α

namespace Plan

variable {α : Type} [Scalar α] (p : Plan α)

/-- Runs until the response reaches the threshold, which is looked at after the first
iteration. -/
def run : Outcome α (Finished α p.geometry.size) :=
  match p.budget, p.threshold.toNumber "snr_threshold" with
  | budget, .ok t => Run.climbFrom p.ascent t.value budget p.start
  | 0, .error _ => .ok ⟨Run.start p.ascent p.start, false⟩
  | _ + 1, .error e => do
      let _ ← p.ascent.advance 0 p.start
      throw e

/-- The beam that a run leads to, with its pattern. -/
def beam (finished : Finished α p.geometry.size) (pattern : Pattern α) : Beam α where
  weights := finished.weights.toList
  pattern := pattern
  iterations := finished.run.iterations
  converged := finished.converged
  targetResponse := p.ascent.targetResponse finished.weights
  history := finished.run.history
  overlapping := p.overlapping

end Plan

/-- How runs are made.  The budget and the threshold stand in for a request's own. -/
structure Optimizer (α : Type) where
  budget : Setting α
  threshold : Setting α
  stepSize : Number α
  penalty : Number α
  overlap : Setting α
  patternPoints : Setting α

namespace Optimizer

variable {α : Type} [Scalar α]

/-- The names a configuration accepts. -/
def names : List String :=
  ["max_iterations", "snr_threshold", "step_size", "interference_penalty", "overlap_warning",
    "num_pattern_points"]

/-- A configuration that has not been checked. -/
structure Config (α : Type) where
  budget : Setting α
  threshold : Setting α
  stepSize : Setting α
  penalty : Setting α
  overlap : Setting α
  patternPoints : Setting α

/-- Reads a configuration. -/
def Config.ofSettings (s : Settings α) : Outcome α (Config α) := do
  s.checkNames names
  return {
    budget := s.get "max_iterations" (.whole 100)
    threshold := s.get "snr_threshold" (.real 0.9)
    stepSize := s.get "step_size" (.real 0.1)
    penalty := s.get "interference_penalty" (.real 0)
    overlap := s.get "overlap_warning" (.real 0.9)
    patternPoints := s.get "num_pattern_points" SearchGrid.defaultPoints }

/-- Checks a configuration: steps go forward, and interference earns nothing. -/
def ofConfig (c : Config α) : Outcome α (Optimizer α) := do
  let stepSize ← c.stepSize.toNumber "step_size"
  if stepSize.atMostZero then throw (.stepSize c.stepSize)
  let penalty ← c.penalty.toNumber "interference_penalty"
  if penalty.belowZero then throw (.penalty c.penalty)
  return { budget := c.budget, threshold := c.threshold, stepSize, penalty,
           overlap := c.overlap, patternPoints := c.patternPoints }

/-- How well the steering vector of an interferer matches the target's, one being the best. -/
def correlation (g : Geometry α) (target a : Vector (Cplx α) g.size) : α :=
  (Vec.inner target a).abs / Scalar.ofNat g.size

/-- The direction of an interferer if it matches the target beyond the bound.  Lists of
directions may stand for one interferer as long as none of them does. -/
def overlapOf (o : Optimizer α) (g : Geometry α) (target : Vector (Cplx α) g.size)
    (interferer : Setting α) : Outcome α (Option α) := do
  let a ← g.steeringToward interferer
  if h : a.entries.size = g.size then
    let bound ← o.overlap.toBound "overlap_warning"
    if bound < correlation g target ⟨a.entries, h⟩ then
      let θ ← interferer.toKept "interference_angles"
      return some θ
    else return none
  else throw .shapesDisagree

/-- The interferers of a request that overlap with the target. -/
def overlapping (o : Optimizer α) (g : Geometry α) (target : Vector (Cplx α) g.size)
    (interferers : Setting α) : Outcome α (List α) := do
  let found ← ((interferers.members?).getD []).mapM (o.overlapOf g target)
  return found.filterMap id

/-- The steering vector of the target of a request, which has to be a single direction. -/
def targetOf (g : Geometry α) (target : Setting α) : Outcome α (Vector (Cplx α) g.size) := do
  let a ← g.steeringToward target
  match a.asVectorOf? g.size with
  | some a => return a
  | none => throw .shapesDisagree

/-- The weights a run starts from: those of the caller, or the matched filter of the
target. -/
def startWeights (g : Geometry α) (target : Vector (Cplx α) g.size) :
    Option (Tensor α) → Outcome α (Vector (Cplx α) g.size)
  | none => Weights.matchedTo target
  | some t => do
      let t ← t.toComplex
      if h : t.entries.size = g.size then Weights.normalize ⟨t.entries, h⟩
      else throw (.startCount g.givenSize t.entries.size)

/-- The charge for `k` interferers; without any it is not looked at. -/
def charge (o : Optimizer α) (k : Nat) : Outcome α α :=
  if k = 0 then .ok 0 else o.penalty.toScalar

/-- Reads a request, in the order in which its values are needed. -/
def plan (o : Optimizer α) (r : BeamRequest α) : Outcome α (Plan α) := do
  let g ← Geometry.ofSettings r.elements r.spacing
  let budget := r.budget.orElse o.budget
  let limit ← budget.toNumber "max_iterations"
  if limit.belowZero then throw (.iterationBudget budget)
  let _ ← r.target.toSingle "target_direction"
  let _ ← r.interferers.toLength "interference_angles"
  let target ← targetOf g r.target
  let interferers ← g.directionsAmong r.interferers
  let overlapping ← o.overlapping g target r.interferers
  let start ← r.start.toTensor?
  let w ← startWeights g target start
  let penalty ← o.charge interferers.length
  let count ← budget.toCount "max_iterations"
  return {
    geometry := g
    interferers
    ascent := ⟨target, g.steeringOf interferers, penalty, o.stepSize⟩
    start := w
    budget := count
    threshold := r.threshold.orElse o.threshold
    overlapping }

/-- Answers a request. -/
def optimize (o : Optimizer α) (r : BeamRequest α) : Outcome α (Beam α) := do
  let p ← o.plan r
  let finished ← p.run
  let pattern ← Pattern.ofWeights p.geometry o.patternPoints (.ofVector finished.weights)
  return p.beam finished pattern

end Optimizer

end PhasedArray
