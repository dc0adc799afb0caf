import PhasedArray.Evaluation
import PhasedArray.Optimizer

set_option autoImplicit false

/-!
# The engine: one array, many requests (SPEC §4.9)

An engine is set up once, with an array, an estimator and an optimizer, and then
answers requests.  An answer depends on the setup and the request alone; the counters
record what happened and decide nothing.

Left out are the log (SPEC §8) and the time since an engine was set up.
-/

namespace PhasedArray

namespace Engine

/-! ## Setup -/

/-- What an engine is made of. -/
structure Setup (α : Type) [Scalar α] where
  geometry : Geometry α
  config : Estimator.Config α
  optimizer : Optimizer α
  estimator : Estimator α

variable {α : Type} [Scalar α]

/-- The number of elements unless the caller says otherwise. -/
def defaultElements : Setting α := .whole 8

/-- Reads the settings of the array. -/
def geometryOf (s : Settings α) : Outcome α (Geometry α) := do
  s.checkNames ["num_elements", "element_spacing"]
  Geometry.ofSettings (s.get "num_elements" defaultElements)
    (s.get "element_spacing" Geometry.defaultSpacing)

/-- Sets up an engine from the three sections of a configuration.  All of them are read
before any is checked, the array apart; the optimizer is checked before the estimator. -/
def setup (array doa optimizer : Setting α) : Outcome α (Setup α) := do
  let array ← Settings.ofTable "array" array
  let geometry ← geometryOf array
  let doa ← Settings.ofTable "doa" doa
  let config ← Estimator.Config.ofSettings doa
  let optimizer ← Settings.ofTable "optimizer" optimizer
  let optimizer ← Optimizer.Config.ofSettings optimizer
  let optimizer ← Optimizer.ofConfig optimizer
  let estimator ← Estimator.ofConfig geometry config none
  return { geometry, config, optimizer, estimator }

/-- Sets up an engine from a configuration, whose sections may be left out.  One that counts
as a no has none. -/
def ofConfig (config : Setting α) : Outcome α (Setup α) :=
  match config with
  | .table sections =>
      let part (name : String) : Setting α := Settings.get sections name (.table [])
      setup (part "array") (part "doa") (part "optimizer")
  | config =>
      if config.isYes then .error .sectionMissing
      else setup (.table []) (.table []) (.table [])

/-! ## Requests and answers -/

/-- A request to an engine. -/
inductive Request (α : Type) where
  /-- Estimate directions, by the configured method or by another, and score them
  against true angles if those are given. -/
  | directions (snapshots : Tensor α) (method actual : Setting α)
  /-- Optimize a beam. -/
  | beam (params : Settings α)

/-- The answer to a request. -/
inductive Answer (α : Type) where
  | directions (estimate : Estimate α)
  | beam (beam : Beam α)

/-- The estimator for a request: the one set up, unless a method is named. -/
def estimatorFor (u : Setup α) (method : Setting α) : Outcome α (Estimator α) :=
  match method with
  | .nothing => .ok u.estimator
  | method => Estimator.ofRequest u.geometry u.config method

/-- An estimate, scored against true angles if those are given. -/
def score (e : Estimate α) (actual : Setting α) : Outcome α (Estimate α) :=
  match actual with
  | .nothing => .ok e
  | actual => e.scoredAgainst actual

/-- The estimate for a request. -/
def directions (S : Solvers α) (u : Setup α) (snapshots : Tensor α) (method actual : Setting α) :
    Outcome α (Estimate α) := do
  let E ← estimatorFor u method
  let e ← E.estimate S snapshots
  score e actual

/-- The beam for a request. -/
def beam (u : Setup α) (params : Settings α) : Outcome α (Beam α) := do
  let r ← BeamRequest.ofSettings params
  u.optimizer.optimize r

/-- The answer to a request. -/
def answer (S : Solvers α) (u : Setup α) : Request α → Outcome α (Answer α)
  | .directions snapshots method actual => (directions S u snapshots method actual).map .directions
  | .beam params => (beam u params).map .beam

/-! ## Counters -/

/-- A count for each method. -/
structure MethodCounts where
  music : Nat := 0
  esprit : Nat := 0
  tlsEsprit : Nat := 0
  deriving DecidableEq, Repr, Inhabited

/-- The count of a method. -/
def MethodCounts.get (c : MethodCounts) : Method → Nat
  | .music => c.music
  | .esprit => c.esprit
  | .tlsEsprit => c.tlsEsprit

/-- One more for a method. -/
def MethodCounts.bump (c : MethodCounts) : Method → MethodCounts
  | .music => { c with music := c.music + 1 }
  | .esprit => { c with esprit := c.esprit + 1 }
  | .tlsEsprit => { c with tlsEsprit := c.tlsEsprit + 1 }

theorem MethodCounts.get_bump (c : MethodCounts) (m k : Method) :
    (c.bump m).get k = if m = k then c.get k + 1 else c.get k := by
  cases m <;> cases k <;> rfl

/-- What an engine has done so far. -/
structure Counters where
  doaRequests : Nat := 0
  beamRequests : Nat := 0
  degenerate : Nat := 0
  resolutionLimited : Nat := 0
  notConverged : Nat := 0
  errors : Nat := 0
  byMethod : MethodCounts := {}
  deriving DecidableEq, Repr, Inhabited

namespace Counters

/-- A count that grows by one if `p` holds. -/
@[inline] def countIf (p : Bool) (n : Nat) : Nat := if p then n + 1 else n

/-- Whether a fault of a beam request is counted: those of the array, and parameters
that are not well formed. -/
def beamFaultCounts (e : Fault α) : Bool := e.isOfArray || e.family == .argument

/-- The counters after a request for directions. -/
def recordDirections (c : Counters) (outcome : Outcome α (Estimate α)) : Counters :=
  let c := { c with doaRequests := c.doaRequests + 1 }
  match outcome with
  | .error e => { c with errors := countIf e.isOfArray c.errors }
  | .ok e =>
      { c with
        byMethod := c.byMethod.bump e.method
        degenerate := countIf e.degenerate c.degenerate
        resolutionLimited := countIf e.resolutionLimited c.resolutionLimited }

/-- The counters after a request for a beam. -/
def recordBeam (c : Counters) (outcome : Outcome α (Beam α)) : Counters :=
  let c := { c with beamRequests := c.beamRequests + 1 }
  match outcome with
  | .error e => { c with errors := countIf (beamFaultCounts e) c.errors }
  | .ok b => { c with notConverged := countIf (!b.converged) c.notConverged }

end Counters

/-! ## Sessions -/

/-- The outcome of a request and the counters after it. -/
def handle (S : Solvers α) (u : Setup α) (c : Counters) :
    Request α → Outcome α (Answer α) × Counters
  | .directions snapshots method actual =>
      let outcome := directions S u snapshots method actual
      (outcome.map .directions, c.recordDirections outcome)
  | .beam params =>
      let outcome := beam u params
      (outcome.map .beam, c.recordBeam outcome)

/-- The outcomes of a sequence of requests and the counters after it. -/
def session (S : Solvers α) (u : Setup α) :
    Counters → List (Request α) → List (Outcome α (Answer α)) × Counters
  | c, [] => ([], c)
  | c, r :: rest =>
      let (outcome, c) := handle S u c r
      let (outcomes, c) := session S u c rest
      (outcome :: outcomes, c)

/-- The outcome of a request on an engine that is set up for it alone. -/
def answerAlone (S : Solvers α) (config : Setting α) (r : Request α) : Outcome α (Answer α) := do
  let u ← ofConfig config
  (handle S u {} r).1

theorem handle_fst (S : Solvers α) (u : Setup α) (c : Counters) (r : Request α) :
    (handle S u c r).1 = answer S u r := by
  cases r <;> rfl

theorem session_fst (S : Solvers α) (u : Setup α) (c : Counters) (rs : List (Request α)) :
    (session S u c rs).1 = rs.map (answer S u) := by
  induction rs generalizing c with
  | nil => rfl
  | cons r rest ih => simp [session, handle_fst, ih]

end Engine

end PhasedArray
