import PhasedArray.Estimator
import PhasedArray.Signal

set_option autoImplicit false

/-!
# Evaluation: how well an estimator does on synthetic snapshots (SPEC §4.6)

One trial draws snapshots, estimates the directions and scores them against the
true ones.  A sweep repeats trials at each signal-to-noise ratio; a comparison gives
the same snapshots to several estimators.  All draws come from one stream, whose
state every function takes and returns, also when it ends in a fault.
-/

namespace PhasedArray

/-- Sets the value of a key: in its place if a `same` key is there, at the end otherwise. -/
def putBy {κ υ : Type} (same : κ → κ → Bool) (key : κ) (value : υ) :
    List (κ × υ) → List (κ × υ)
  | [] => [(key, value)]
  | (k, v) :: rest =>
      if same k key then (k, value) :: rest else (k, v) :: putBy same key value rest

/-- Setting a value keeps the order of the keys; a new key comes last. -/
theorem map_fst_putBy {κ υ : Type} (same : κ → κ → Bool) (key : κ) (value : υ)
    (entries : List (κ × υ)) :
    (putBy same key value entries).map Prod.fst =
      if entries.any fun e => same e.1 key then entries.map Prod.fst
      else entries.map Prod.fst ++ [key] := by
  induction entries with
  | nil => simp [putBy]
  | cons e rest ih =>
    by_cases h : same e.1 key
    · simp [putBy, h]
    · simp only [putBy, h, Bool.false_eq_true, if_false, List.map_cons, ih, List.any_cons,
        Bool.false_or]
      split <;> simp

namespace Evaluation

variable {α σ : Type} [Scalar α]

/-- The error in radians below which a trial succeeds. -/
def defaultThreshold : Setting α := .real 0.1

/-- An estimate from a matrix of samples. -/
def estimateSamples {m n : Nat} (S : Solvers α) (E : Estimator α) (X : Mat (Cplx α) m n) :
    Outcome α (Estimate α) := do
  let X ← Snapshots.ofMat X
  E.estimateSnapshots S X

/-- One trial: snapshots of the array `g`, estimated and scored. -/
def trial (S : Solvers α) (G : Generator α σ) (E : Estimator α) (g : Geometry α)
    (scene : Scene α) (s : σ) : Outcome α (Estimate α) × σ :=
  match Signal.generate G g scene s with
  | (.error e, s) => (.error e, s)
  | (.ok ⟨_, X⟩, s) =>
      (do
        let estimate ← estimateSamples S E X
        estimate.scoredAgainst scene.angles, s)

/-! ## Sweeps -/

/-- The outcomes of the trials at one ratio: the errors of those with a result, in
order, how many of them succeeded, and the number of those without. -/
structure Tally (α : Type) where
  errors : List (AngleError α) := []
  successes : Nat := 0
  degenerate : Nat := 0

/-- The tally with one more estimate, which succeeds if its error is below the threshold. -/
def Tally.add (threshold : Outcome α α) (t : Tally α) (e : Estimate α) : Outcome α (Tally α) :=
  match e.error with
  | none => .ok { t with degenerate := t.degenerate + 1 }
  | some r => threshold.map fun bound =>
      { t with
        errors := t.errors ++ [r]
        successes := if r.below bound then t.successes + 1 else t.successes }

/-- Adds up to `count` trials to a tally; the first fault ends them. -/
def trials (S : Solvers α) (G : Generator α σ) (E : Estimator α) (scene : Scene α)
    (threshold : Outcome α α) : (count : Nat) → Tally α → σ → Outcome α (Tally α) × σ
  | 0, tally, s => (.ok tally, s)
  | count + 1, tally, s =>
      match trial S G E E.geometry scene s with
      | (.error e, s) => (.error e, s)
      | (.ok estimate, s) =>
          match tally.add threshold estimate with
          | .error e => (.error e, s)
          | .ok tally => trials S G E scene threshold count tally s

/-- The statistics of one ratio.  The mean error is of the trials with a result, and
missing if there is none. -/
structure SweepPoint (α : Type) where
  meanError : Option (AngleError α)
  successes : Nat
  trials : Nat
  degenerate : Nat

/-- The share of the trials that succeeded. -/
def SweepPoint.successRate (p : SweepPoint α) : α :=
  Scalar.ofNat p.successes / Scalar.ofNat p.trials

/-- The mean error as a number, undefined if no trial has a result. -/
def SweepPoint.mean (p : SweepPoint α) : α :=
  (p.meanError.map AngleError.value).getD Scalar.undefined

/-- The statistics of `count` trials with the given tally. -/
def Tally.point (count : Nat) (t : Tally α) : SweepPoint α :=
  { meanError := if t.errors.isEmpty then none else some (AngleError.mean t.errors)
    successes := t.successes
    trials := count
    degenerate := t.degenerate }

/-- The statistics by ratio in decibels, in the order in which the ratios first occurred. -/
abbrev Sweep (α : Type) := List (α × SweepPoint α)

/-- What a sweep runs through, each value as it was given. -/
structure SweepRequest (α : Type) where
  angles : Setting α
  ratios : Setting α
  trials : Setting α
  snapshots : Setting α
  threshold : Setting α

/-- The scene of a sweep at one ratio. -/
def SweepRequest.sceneAt (r : SweepRequest α) (ratio : Setting α) : Scene α :=
  ⟨r.angles, ratio, r.snapshots⟩

/-- The bound of a sweep that errors are compared with. -/
def SweepRequest.bound (r : SweepRequest α) : Outcome α α :=
  (r.threshold.toNumber "success_threshold").map Number.value

/-- The ratios of a sweep.  The number of trials is looked at first, and that there are
directions to be counted. -/
def SweepRequest.checked (r : SweepRequest α) : Outcome α (List (Setting α)) := do
  let n ← r.trials.toNumber "num_trials"
  if n.belowOne then throw (.trialCount r.trials)
  let _ ← r.angles.toLength "true_angles"
  match r.ratios.members? with
  | some ratios => return ratios
  | none => throw (.misfitSetting "snr_range")

/-- Equal ratios, where all undefined ones count as one. -/
def sameOrUndefined (x y : α) : Bool := Scalar.same x y || Scalar.isNaN x && Scalar.isNaN y

/-- Adds the blocks of trials at the given ratios; a ratio that occurs again, by `same`,
replaces its earlier statistics. -/
def sweepInto (S : Solvers α) (G : Generator α σ) (E : Estimator α) (r : SweepRequest α)
    (count : Nat) (same : α → α → Bool) :
    List (Setting α) → Sweep α → σ → Outcome α (Sweep α) × σ
  | [], done, s => (.ok done, s)
  | ratio :: rest, done, s =>
      match trials S G E (r.sceneAt ratio) r.bound count {} s with
      | (.error e, s) => (.error e, s)
      | (.ok tally, s) =>
          match ratio.toScalar "snr_db" with
          | .error e => (.error e, s)
          | .ok x => sweepInto S G E r count same rest (putBy same x (tally.point count) done) s

/-- A sweep of trials at each ratio.  Without ratios there are no trials; with some, a number
of trials that was not written as a whole one is refused before the first. -/
def sweep (S : Solvers α) (G : Generator α σ) (E : Estimator α) (r : SweepRequest α)
    (same : α → α → Bool) (s : σ) : Outcome α (Sweep α) × σ :=
  match r.checked with
  | .error e => (.error e, s)
  | .ok [] => (.ok [], s)
  | .ok ratios =>
      match r.trials.toCount "num_trials" with
      | .error e => (.error e, s)
      | .ok count => sweepInto S G E r count same ratios [] s

/-! ## Comparison -/

/-- Estimators by name; a name that is given again keeps its place and takes the later
estimator. -/
def byName (named : List (Setting α × Estimator α)) : List (Setting α × Estimator α) :=
  named.foldl (fun done entry => putBy Setting.names entry.1 entry.2 done) []

/-- The estimates of several estimators from the same samples. -/
def estimateAll {m n : Nat} (S : Solvers α) (actual : Setting α) (X : Mat (Cplx α) m n) :
    List (Setting α × Estimator α) → Outcome α (List (Setting α × Estimate α))
  | [] => .ok []
  | (name, E) :: rest => do
      let estimate ← estimateSamples S E X
      let estimate ← estimate.scoredAgainst actual
      let others ← estimateAll S actual X rest
      return (name, estimate) :: others

/-- The estimates of several estimators of one array from the same snapshots. -/
def compare (S : Solvers α) (G : Generator α σ) (named : List (Setting α × Estimator α))
    (scene : Scene α) (s : σ) : Outcome α (List (Setting α × Estimate α)) × σ :=
  match named with
  | [] => (.error .noEstimators, s)
  | (_, first) :: rest =>
      if rest.all fun entry => entry.2.geometry.sameArray first.geometry then
        match Signal.generate G first.geometry scene s with
        | (.error e, s) => (.error e, s)
        | (.ok ⟨_, X⟩, s) => (estimateAll S scene.angles X named, s)
      else (.error .arraysDiffer, s)

end Evaluation

end PhasedArray
