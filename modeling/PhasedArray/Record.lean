import PhasedArray.Estimator

set_option autoImplicit false

/-!
# Records: estimates as callers get them (SPEC §3, §6)

A caller gets an estimate as a record that is to be written down.  An angle that is not finite
leaves its place empty there; the spectrum and the error are recorded as they are.
-/

namespace PhasedArray

/-- An estimate as a caller gets it. -/
structure Record (α : Type) where
  method : String
  /-- The angles, empty where they are not finite. -/
  angles : List (Option α)
  degenerate : Bool
  resolutionLimited : Bool
  /-- The spectrum, if the search has one. -/
  spectrum : Option (List α)
  /-- The error, if the estimate was scored. -/
  error : Option α

variable {α : Type} [Scalar α]

/-- The angles of an estimate, undefined for each source if it has none. -/
def Estimate.shownAngles (e : Estimate α) : List α :=
  e.angles?.getD (List.replicate e.sources Scalar.undefined)

/-- The record of an estimate. -/
def Estimate.record (e : Estimate α) : Record α where
  method := e.method.label
  angles := e.shownAngles.map fun x => if Scalar.isFinite x then some x else none
  degenerate := e.degenerate
  resolutionLimited := e.resolutionLimited
  spectrum := e.spectrum?
  error := e.error.map AngleError.value

namespace Record

omit [Scalar α] in
/-- Every number of a record. -/
def numbers (r : Record α) : List α :=
  r.angles.filterMap id ++ r.spectrum.getD [] ++ r.error.toList

/-- Whether a record can be written where there are no words for infinities and undefined
values. -/
def isStrict (r : Record α) : Bool := r.numbers.all Scalar.isFinite

end Record

end PhasedArray
