import PhasedArray.AngleError
import PhasedArray.Rotation
import PhasedArray.Settings
import PhasedArray.SpectralSearch

set_option autoImplicit false

/-!
# Estimators: from snapshots to directions (SPEC §3, §4.4, §4.5)

An estimator knows its array, how many sources to look for, whether to average the
covariance, and how to search the subspaces.  Every estimator answers the same
requests; what differs between methods is in `Search` and in `Finding`.
-/

namespace PhasedArray

/-- How an estimator searches the subspaces.  The tolerance of a rotation fit may be none
that can be compared with, which is a fault where it is. -/
inductive Search (α : Type) where
  | spectral (s : SpectralSearch α)
  | rotational (kind : RotationFit) (tolerance : Outcome α α)

/-- What a search found.  A rotation fit without a result finds no angles. -/
inductive Finding (α : Type) where
  | spectral (found : SpectralSearch.Found α)
  | rotational (kind : RotationFit) (angles : Option (List α))

/-- An estimate of the directions of `sources` sources. -/
structure Estimate (α : Type) where
  sources : Nat
  eigenvalues : List α
  finding : Finding α
  error : Option (AngleError α) := none

/-- The method of a rotation fit. -/
def RotationFit.method : RotationFit → Method
  | leastSquares => .esprit
  | totalLeastSquares => .tlsEsprit

namespace Estimate

variable {α : Type}

/-- The method that made the estimate. -/
def method (e : Estimate α) : Method :=
  match e.finding with
  | .spectral _ => .music
  | .rotational kind _ => kind.method

/-- The angles, unless the search has no result. -/
def angles? (e : Estimate α) : Option (List α) :=
  match e.finding with
  | .spectral f => some f.angles
  | .rotational _ angles => angles

/-- Whether the search has no result. -/
def degenerate (e : Estimate α) : Bool := e.angles?.isNone

/-- The number of spectral peaks found. -/
def peaks (e : Estimate α) : Nat :=
  match e.finding with
  | .spectral f => f.peaks
  | .rotational _ _ => 0

/-- Whether a spectrum had fewer peaks than there are sources. -/
def resolutionLimited (e : Estimate α) : Bool :=
  match e.finding with
  | .spectral f => f.peaks < e.sources
  | .rotational _ _ => false

/-- The spectrum of a spectral search. -/
def spectrum? (e : Estimate α) : Option (List α) :=
  match e.finding with
  | .spectral f => some f.spectrum
  | .rotational _ _ => none

/-- The estimate with its error against the true angles; without angles there is none. -/
def scored [Scalar α] (e : Estimate α) (actual : List α) : Estimate α :=
  match e.angles? with
  | some angles => { e with error := some (.between angles actual) }
  | none => e

/-- The estimate with its error against true angles as they were given, which are looked at
only if there are angles to score. -/
def scoredAgainst [Scalar α] (e : Estimate α) (actual : Setting α) : Outcome α (Estimate α) :=
  if e.degenerate then .ok e else actual.toReals.map e.scored

end Estimate

/-- An estimator on an array. -/
structure Estimator (α : Type) [Scalar α] where
  geometry : Geometry α
  sources : SourceCount geometry.size
  averaging : Bool
  search : Search α

namespace Estimator

variable {α : Type} [Scalar α]

/-- The number of sources unless the caller says otherwise. -/
def defaultSources : Setting α := .whole 1

/-- The method an estimator uses. -/
def method (E : Estimator α) : Method :=
  match E.search with
  | .spectral _ => .music
  | .rotational kind _ => kind.method

/-! ## Estimation -/

/-- The directions found in a decomposition. -/
def ofDecomposition (S : Solvers α) (E : Estimator α) (D : Decomposition α E.geometry.size) :
    Outcome α (Estimate α) := do
  let finding ←
    match E.search with
    | .spectral s => do
        let found ← s.find E.geometry D
        pure (.spectral found)
    | .rotational kind tolerance => do
        let angles ← Rotation.ofSubspace S kind tolerance E.geometry D.signal
        pure (.rotational kind angles)
  return { sources := E.sources, eigenvalues := D.values.toList, finding }

/-- The directions found in a covariance of the array. -/
def ofCovariance (S : Solvers α) (E : Estimator α)
    (C : Mat (Cplx α) E.geometry.size E.geometry.size) : Outcome α (Estimate α) := do
  let D ← Decomposition.ofCovariance S C E.sources
  ofDecomposition S E D

/-- A tensor as a covariance of the array. -/
def checkCovariance (g : Geometry α) (t : Tensor α) : Outcome α (Mat (Cplx α) g.size g.size) :=
  match t.asMat? g.size g.size with
  | some C => .ok C
  | none => .error (.covarianceShape g.givenSize t.shape)

/-- The covariance of snapshots of the array. -/
def covarianceOf (E : Estimator α) (X : Snapshots α) :
    Outcome α (Mat (Cplx α) E.geometry.size E.geometry.size) :=
  if h : X.elements = E.geometry.size then
    .ok (Covariance.sample E.averaging (h ▸ X.samples : Mat (Cplx α) E.geometry.size X.count))
  else .error (.snapshotRows E.geometry.givenSize X.elements)

/-- The covariance of a tensor of snapshots. -/
def covariance (E : Estimator α) (t : Tensor α) :
    Outcome α (Mat (Cplx α) E.geometry.size E.geometry.size) := do
  let X ← Snapshots.ofTensor t
  E.covarianceOf X

/-- The directions found in a tensor that has to be a covariance of the array. -/
def ofCovarianceTensor (S : Solvers α) (E : Estimator α) (t : Tensor α) :
    Outcome α (Estimate α) := do
  let C ← checkCovariance E.geometry t
  let D ← Decomposition.ofEntries S t C E.sources
  ofDecomposition S E D

/-- The directions found in snapshots. -/
def estimateSnapshots (S : Solvers α) (E : Estimator α) (X : Snapshots α) :
    Outcome α (Estimate α) := do
  let C ← E.covarianceOf X
  ofCovariance S E C

/-- The directions found in a tensor of snapshots. -/
def estimate (S : Solvers α) (E : Estimator α) (t : Tensor α) : Outcome α (Estimate α) := do
  let X ← Snapshots.ofTensor t
  E.estimateSnapshots S X

/-- The spectrum of a covariance in directions and for a number of sources that may differ
from the estimator's own.  The number of sources is looked at before the covariance is
decomposed, and the directions after it. -/
def spectrumOf (S : Solvers α) (E : Estimator α) (s : SpectralSearch α) (t : Tensor α)
    (directions k : Setting α) : Outcome α (List α) := do
  let C ← checkCovariance E.geometry t
  let k ← match k with
    | .nothing => pure E.sources
    | k => SourceCount.ofSetting E.geometry.size E.geometry.givenSize k
  let D ← Decomposition.ofEntries S t C k
  match directions with
  | .nothing => do
      let values ← s.spectrum E.geometry D.noise
      return values.toList
  | directions => do
      let θ ← directions.toReals
      let values ← s.spectrumAt E.geometry D.noise (Vec.ofList θ)
      return values.toList

/-! ## Configuration -/

/-- What to look for and how.  Everything but the method is kept as it was given and read
when an estimator needs it. -/
structure Config (α : Type) where
  sources : Setting α
  method : Method
  gridPoints : Setting α
  floor : Setting α
  sentinel : Setting α
  averaging : Setting α
  tolerance : Setting α

/-- One source, found by spectral search on the default grid. -/
def Config.default : Config α :=
  { sources := defaultSources
    method := .music
    gridPoints := SearchGrid.defaultPoints
    floor := SpectralSearch.defaultFloor
    sentinel := SpectralSearch.defaultSentinel
    averaging := .flag false
    tolerance := .real Rotation.defaultTolerance }

/-- The method requested by name, in capitals or not. -/
def methodOf (s : Setting α) : Outcome α Method :=
  match s with
  | .text name =>
      match Method.ofText? name with
      | some m => .ok m
      | none => .error (.unknownMethod s)
  | s => .error (.unknownMethod s)

/-- The names a configuration accepts. -/
def Config.names : List String :=
  ["num_sources", "method", "num_grid_points", "spectrum_floor", "spectrum_sentinel",
    "forward_backward"]

/-- Reads a configuration. -/
def Config.ofSettings (s : Settings α) : Outcome α (Config α) := do
  s.checkNames names
  let base : Config α := Config.default
  let method ←
    match s.get? "method" with
    | none => pure base.method
    | some given => methodOf given
  return {
    sources := s.get "num_sources" base.sources
    method
    gridPoints := s.get "num_grid_points" base.gridPoints
    floor := s.get "spectrum_floor" base.floor
    sentinel := s.get "spectrum_sentinel" base.sentinel
    averaging := s.get "forward_backward" base.averaging
    tolerance := base.tolerance }

/-- The number of sources of a configuration, for an array. -/
def Config.sourceCount (c : Config α) (g : Geometry α) : Outcome α (SourceCount g.size) :=
  SourceCount.ofSetting g.size g.givenSize c.sources

/-- The spectral search of a configuration. -/
def spectral (g : Geometry α) (c : Config α) : Outcome α (Estimator α) := do
  let sources ← c.sourceCount g
  let grid ← SearchGrid.ofSetting c.gridPoints
  return ⟨g, sources, c.averaging.isYes, .spectral ⟨grid, c.floor, c.sentinel⟩⟩

/-- The rotation fit of a configuration, which needs an array of two sub-arrays. -/
def rotational (g : Geometry α) (kind : RotationFit) (c : Config α) : Outcome α (Estimator α) :=
  if g.size < 2 then .error (.tooFewElements kind.method g.givenSize)
  else do
    let sources ← c.sourceCount g
    return ⟨g, sources, c.averaging.isYes, .rotational kind (c.tolerance.toBound "singular_tol")⟩

/-- The estimator of a configuration; `method` takes the place of the configured one. -/
def ofConfig (g : Geometry α) (c : Config α) (method : Option Method) :
    Outcome α (Estimator α) :=
  match method.getD c.method with
  | .music => spectral g c
  | .esprit => rotational g .leastSquares c
  | .tlsEsprit => rotational g .totalLeastSquares c

/-- The estimator of a configuration, for a method requested by name; nothing at all leaves
the configured one. -/
def ofRequest (g : Geometry α) (c : Config α) (method : Setting α) : Outcome α (Estimator α) :=
  match method with
  | .nothing => ofConfig g c none
  | given => do
      let m ← methodOf given
      ofConfig g c (some m)

/-- One line that describes an estimator. -/
def text (E : Estimator Float) : String :=
  E.method.estimatorName ++ "(M=" ++ E.geometry.givenSize.asText ++ ", d=" ++
    E.geometry.givenSpacing.asText ++ ", K=" ++ toString E.sources.val ++ ")"

end Estimator

end PhasedArray
