import PhasedArray.Method
import PhasedArray.Setting

set_option autoImplicit false

/-!
# Faults: what can be wrong with a request (SPEC §7)

A fault is a cause, with the values and shapes that show it.  Its family says how
callers tell faults apart, and its message is one sentence.  The families of the
array itself (`isOfArray`) are those a session counts; the others are requests that
are not well formed in the first place.
-/

namespace PhasedArray

/-- Why a request cannot be answered. -/
inductive Fault (α : Type) where
  /-- The number of elements is no positive whole number. -/
  | elementCount (given : Setting α)
  /-- The spacing is not positive and finite. -/
  | elementSpacing (given : Setting α)
  /-- A grid has no points. -/
  | gridSize (given : Setting α)
  /-- The array has no two sub-arrays. -/
  | tooFewElements (method : Method) (given : Setting α)
  /-- The number of sources does not lie between zero and the number of elements. -/
  | sourceCount (elements given : Setting α)
  /-- Snapshots have neither one axis nor two. -/
  | snapshotRank (shape : List Nat)
  /-- There are no elements or no snapshots. -/
  | snapshotsEmpty (shape : List Nat)
  /-- A sample is not finite. -/
  | snapshotsNotFinite
  /-- The snapshots are not those of the array. -/
  | snapshotRows (expected : Setting α) (rows : Nat)
  /-- A load is negative. -/
  | loading (given : Setting α)
  /-- A covariance is no square matrix. -/
  | covarianceNotSquare (shape : List Nat)
  /-- An entry of a covariance is not finite. -/
  | covarianceNotFinite
  /-- A covariance is not one of the array. -/
  | covarianceShape (elements : Setting α) (shape : List Nat)
  /-- There is no information criterion of this name. -/
  | criterion (given : Setting α)
  /-- There is no method of this name. -/
  | unknownMethod (given : Setting α)
  /-- Weights have no length, or none that is finite. -/
  | weightsNotScalable
  /-- A beam has no target. -/
  | noTargets
  /-- The covariance of a minimum-variance beam is not one of the array. -/
  | interferenceShape (elements : Setting α) (shape : List Nat)
  /-- An entry of that covariance is not finite. -/
  | interferenceNotFinite
  /-- That covariance is singular by its singular values. -/
  | interferenceSingular (condition : α)
  /-- That covariance is singular by elimination. -/
  | interferenceUnsolvable
  /-- That covariance gives the target no positive power. -/
  | interferenceNotPositive
  /-- A number of bits is no whole number, or is negative. -/
  | quantizerBits (given : Setting α)
  /-- There is not one phase for each element. -/
  | phaseCount (elements : Setting α) (shape : List Nat)
  /-- There is not one weight for each element. -/
  | weightCount (elements : Setting α) (count : Nat)
  /-- A pattern has no samples, or not one for each direction. -/
  | patternGrid
  /-- A step of the optimizer does not go forward. -/
  | stepSize (given : Setting α)
  /-- Interference is rewarded. -/
  | penalty (given : Setting α)
  /-- A number of iterations is negative. -/
  | iterationBudget (given : Setting α)
  /-- There is not one weight to start from for each element. -/
  | startCount (elements : Setting α) (count : Nat)
  /-- There are no snapshots to draw. -/
  | snapshotCount (given : Setting α)
  /-- There are no trials to run. -/
  | trialCount (given : Setting α)
  /-- There are no estimators to compare. -/
  | noEstimators
  /-- The estimators to compare are not of one array. -/
  | arraysDiffer
  /-- A setting has a name that is not known. -/
  | unknownSetting (name : String)
  /-- A setting that has to be given is not. -/
  | missingSetting (name : String)
  /-- A setting has a value of another kind. -/
  | misfitSetting (name : String)
  /-- A single number stands where a list has to. -/
  | bareNumber
  /-- A count was not written as a whole number. -/
  | unwrittenCount
  /-- A whole number stands where no word holds it. -/
  | oversizedNumber
  /-- A value that no array keeps as a number stands where numbers are needed. -/
  | assortedEntries
  /-- A place stands for a list of numbers where it has to stand for one. -/
  | listInPlace
  /-- A text stands where a number has to. -/
  | textForNumber
  /-- A list stands where a number has to. -/
  | listForNumber
  /-- There is no such axis, or no such place along it. -/
  | placeMissing
  /-- There is no axis along which to sort. -/
  | axisMissing
  /-- Two shapes do not fit together, or one is not what a solver takes. -/
  | shapesDisagree
  /-- A list has no largest or smallest value because it is empty. -/
  | emptyValues
  /-- A value that is not finite stands where a solver or a grid needs a number. -/
  | undefinedNumber
  /-- An infinite value stands where a whole number is needed. -/
  | infiniteNumber
  /-- A power lies beyond the range of the numbers. -/
  | powerTooLarge
  /-- A whole number lies beyond the range of the scalars. -/
  | numberTooLarge
  /-- More things are asked for than can be counted. -/
  | extentTooLarge
  /-- More things are asked for than can be kept. -/
  | extentUnkept
  /-- An entry that is no number has no phase. -/
  | phaseMissing
  /-- A configuration that is no table has no sections. -/
  | sectionMissing

namespace Fault

variable {α : Type}

/-- The kinds of fault that callers tell apart. -/
inductive Family where
  | array
  | sources
  | configuration
  | numerical
  | singular
  | decomposition
  | argument
  | value
  | overflow
  | place
  | axis
  | lacking
  | memory
  deriving DecidableEq, Repr

/-- The family of a fault. -/
def family : Fault α → Family
  | elementCount _ | elementSpacing _ | gridSize _ | tooFewElements _ _ => .array
  | sourceCount _ _ => .sources
  | snapshotRank _ | snapshotsEmpty _ | snapshotRows _ _ | loading _ | covarianceNotSquare _
  | covarianceShape _ _ | criterion _ | unknownMethod _ | noTargets | interferenceShape _ _
  | quantizerBits _ | phaseCount _ _ | weightCount _ _ | patternGrid | stepSize _ | penalty _
  | iterationBudget _ | startCount _ _ | snapshotCount _ | trialCount _ | noEstimators
  | arraysDiffer => .configuration
  | snapshotsNotFinite | weightsNotScalable => .numerical
  | interferenceNotFinite | interferenceSingular _ | interferenceUnsolvable
  | interferenceNotPositive => .singular
  | covarianceNotFinite => .decomposition
  | unknownSetting _ | missingSetting _ | misfitSetting _ | bareNumber | unwrittenCount
  | oversizedNumber | assortedEntries | listInPlace => .argument
  | shapesDisagree | emptyValues | undefinedNumber | textForNumber | listForNumber
  | extentTooLarge => .value
  | infiniteNumber | powerTooLarge | numberTooLarge => .overflow
  | placeMissing => .place
  | axisMissing => .axis
  | phaseMissing | sectionMissing => .lacking
  | extentUnkept => .memory

/-- The families that describe the array and its data, and not the form of a request. -/
def Family.isOfArray : Family → Bool
  | .array | .sources | .configuration | .numerical | .singular | .decomposition => true
  | .argument | .value | .overflow | .place | .axis | .lacking | .memory => false

/-- Whether the fault lies in the array or its data. -/
def isOfArray (f : Fault α) : Bool := f.family.isOfArray

/-- A number that cannot be read as a whole one. -/
def ofNoWhole : Number.NoWhole → Fault α
  | .undefined => undefinedNumber
  | .infinite => infiniteNumber

/-! ## Messages -/

/-- One digit before the point, and always an exponent. -/
def conditionLayout : Layout :=
  { lowest := 1, highest := 0, pointZero := false, exponentPlus := true, exponentWidth := 2 }

/-- A condition number to three digits. -/
def conditionText (x : Float) : String :=
  match Dyadic.ofFloat? x with
  | some d => (Decimal.ofSignificant 3 d).render conditionLayout
  | none => Decimal.shortestText x

/-- Two extents, as messages write them. -/
def squareText (elements : Setting Float) : String := elements.asText ++ "x" ++ elements.asText

/-- The fault in one sentence. -/
def message : Fault Float → String
  | elementCount n => s!"num_elements must be a positive integer, got {n.asText}"
  | elementSpacing d => s!"element_spacing must be positive, got {d.asText}"
  | gridSize n => s!"num_points must be positive, got {n.asText}"
  | tooFewElements m n =>
      s!"{m.label} needs at least 2 elements for two sub-arrays, got {n.asText}"
  | sourceCount n k => s!"num_sources must satisfy 0 < K < M={n.asText}, got {k.asText}"
  | snapshotRank shape =>
      s!"snapshot matrix must be 2-D (M, N), got shape {Tensor.shapeText shape}"
  | snapshotsEmpty shape => s!"snapshot matrix is empty: shape {Tensor.shapeText shape}"
  | snapshotsNotFinite => "snapshot matrix contains NaN or Inf samples"
  | snapshotRows n rows =>
      s!"signal dimension mismatch: expected {n.asText} antennas, got {rows}"
  | loading x => s!"loading must be non-negative, got {x.asText}"
  | covarianceNotSquare shape => s!"covariance must be square, got shape {Tensor.shapeText shape}"
  | covarianceNotFinite | interferenceNotFinite => "covariance contains NaN or Inf entries"
  | covarianceShape n shape =>
      s!"covariance dimension mismatch: expected {squareText n}, got shape {Tensor.shapeText shape}"
  | criterion c => "Unknown criterion: " ++ c.asText ++ ". Use 'mdl' or 'aic'."
  | unknownMethod m => s!"Unknown estimation method: {m.asText}"
  | weightsNotScalable => "cannot normalize a zero or non-finite weight vector"
  | noTargets => "zero_forcing needs at least one target angle"
  | interferenceShape n shape =>
      s!"covariance must be {squareText n}, got {Tensor.shapeText shape}"
  | interferenceSingular c =>
      s!"covariance is singular (condition ~ {conditionText c}); apply diagonal loading"
  | interferenceUnsolvable => "covariance inversion failed: the matrix is singular"
  | interferenceNotPositive =>
      "a^H C^-1 a is not positive; covariance is not positive definite"
  | quantizerBits b => s!"bits must be a non-negative integer, got {b.asText}"
  | phaseCount n shape => s!"expected {n.asText} phases, got shape {Tensor.shapeText shape}"
  | weightCount n count => s!"expected {n.asText} weights, got {count}"
  | patternGrid => "pattern and grid must be non-empty and the same length"
  | stepSize x => s!"step_size must be positive, got {x.asText}"
  | penalty x => s!"interference_penalty must be non-negative, got {x.asText}"
  | iterationBudget n => s!"max_iterations must be >= 0, got {n.asText}"
  | startCount n count => s!"initial_weights has {count} entries for {n.asText} elements"
  | snapshotCount n => s!"num_snapshots must be >= 1, got {n.asText}"
  | trialCount n => s!"num_trials must be >= 1, got {n.asText}"
  | noEstimators => "no estimators to compare"
  | arraysDiffer => "estimators must share one array geometry"
  | unknownSetting name => s!"unknown setting {name}"
  | missingSetting name => s!"missing setting {name}"
  | misfitSetting name => s!"setting {name} has a value of the wrong kind"
  | bareNumber => "a list of values is needed, not a single one"
  | unwrittenCount => "a count has to be written as a whole number"
  | oversizedNumber => "a whole number beyond the range of words"
  | assortedEntries => "an entry that is no number"
  | listInPlace => "a list of numbers where a single one is needed"
  | textForNumber => "a text where a number is needed"
  | listForNumber => "a list where a number is needed"
  | placeMissing => "there is no such place"
  | axisMissing => "there is no axis to sort along"
  | shapesDisagree => "the shapes do not fit together"
  | emptyValues => "an empty list has no largest value"
  | undefinedNumber => "an undefined value where a number is needed"
  | infiniteNumber => "an infinite value where a whole number is needed"
  | powerTooLarge => "a power beyond the range of the numbers"
  | numberTooLarge => "a whole number beyond the range of the scalars"
  | extentTooLarge => "more things than can be counted"
  | extentUnkept => "more things than can be kept"
  | phaseMissing => "an entry without a phase"
  | sectionMissing => "a configuration without sections"

end Fault

/-- A result, or the fault that stands in its way. -/
abbrev Outcome (α : Type) := Except (Fault α)

namespace Outcome

variable {α β γ : Type}

/-- Two steps have a result if both have one. -/
theorem bind_eq_ok {x : Outcome α β} {f : β → Outcome α γ} {c : γ} :
    (x >>= f) = .ok c ↔ ∃ b, x = .ok b ∧ f b = .ok c := by
  cases x with
  | error e =>
    constructor
    · exact nofun
    · rintro ⟨b, hb, -⟩
      exact nomatch hb
  | ok b =>
    constructor
    · intro h
      exact ⟨b, rfl, h⟩
    · rintro ⟨b', hb, h⟩
      cases hb
      exact h

/-- Two steps fail if the first does, or the second one after it. -/
theorem bind_eq_error {x : Outcome α β} {f : β → Outcome α γ} {e : Fault α} :
    (x >>= f) = .error e ↔ x = .error e ∨ ∃ b, x = .ok b ∧ f b = .error e := by
  cases x with
  | error e' =>
    constructor
    · intro h
      cases h
      exact .inl rfl
    · rintro (h | ⟨b, hb, -⟩)
      · cases h
        rfl
      · exact nomatch hb
  | ok b =>
    constructor
    · intro h
      exact .inr ⟨b, rfl, h⟩
    · rintro (h | ⟨b', hb, h⟩)
      · exact nomatch h
      · cases hb
        exact h

/-- What is made of a result is there if the result is. -/
theorem map_eq_ok {x : Outcome α β} {f : β → γ} {c : γ} :
    x.map f = .ok c ↔ ∃ b, x = .ok b ∧ f b = c := by
  cases x with
  | error e =>
    constructor
    · exact nofun
    · rintro ⟨b, hb, -⟩
      exact nomatch hb
  | ok b =>
    constructor
    · intro h
      exact ⟨b, rfl, Except.ok.inj h⟩
    · rintro ⟨b', hb, h⟩
      cases hb
      exact congrArg Except.ok h

/-- What stands behind a check has a result if the check lets it through. -/
theorem check_eq_ok {c : Prop} [Decidable c] {e : Fault α} {x : Outcome α β} {b : β} :
    (if c then (throw e : Outcome α PUnit) >>= fun _ => x else x) = .ok b ↔ ¬ c ∧ x = .ok b := by
  by_cases h : c
  · rw [if_pos h]
    exact ⟨nofun, fun hb => absurd h hb.1⟩
  · rw [if_neg h]
    exact ⟨fun hb => ⟨h, hb⟩, fun hb => hb.2⟩

end Outcome

end PhasedArray
