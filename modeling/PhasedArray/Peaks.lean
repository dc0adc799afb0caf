import PhasedArray.Cut
import PhasedArray.Reading

set_option autoImplicit false

/-!
# Peaks of a sampled spectrum (SPEC §4.4)

A peak is an interior sample that exceeds both neighbours by more than a margin,
which is a small fraction of the largest magnitude, so that rounding ripple on a
flat spectrum is no peak.  Peaks come in descending order of value; equal values
keep the order of their places.
-/

namespace PhasedArray

namespace Peaks

variable {α : Type} [Scalar α] {n : Nat}

/-- The default fraction of the largest magnitude. -/
def defaultFraction : α := 1e-9

/-- How far a peak has to rise above its neighbours. -/
@[specialize] def margin (fraction : α) (s : Vector α n) : α :=
  fraction * (Scalar.maximum? (s.toList.map Scalar.abs)).getD 0

/-- Whether sample `i` is interior and exceeds both neighbours by more than `m`. -/
@[inline] def isPeak (m : α) (s : Vector α n) (i : Fin n) : Bool :=
  if h : 0 < i.val ∧ i.val + 1 < n then
    decide (s[i.val - 1] + m < s.get i) && decide (s[i.val + 1] + m < s.get i)
  else false

/-- The places of all peaks, strongest first. -/
@[specialize] def all (fraction : α) (s : Vector α n) : List (Fin n) :=
  let m := margin fraction s
  ((List.finRange n).filter (isPeak m s)).mergeSort fun i j => decide (s.get j ≤ s.get i)

/-- The places of the strongest peaks, cut at the signed place `limit`. -/
@[specialize] def strongest (fraction : α) (limit : Int) (s : Vector α n) : List (Fin n) :=
  cutTake limit (all fraction s)

/-- A sample in decibels below the maximum. -/
@[inline] def decibel (top x : α) : α := 10 * Scalar.log10 (x / (top + 1e-30) + 1e-30)

/-! ## Tensors of any shape -/

/-- The places of the strongest peaks of a tensor, which has to have one axis of samples
unless it is too short for a peak.  The limit is a whole number, or nothing for all. -/
def ofTensor (fraction limit : Setting α) (t : Tensor α) : Outcome α (List Nat) :=
  match t.shape with
  | [] => .error .bareNumber
  | m :: rest =>
      if m < 3 then .ok []
      else do
        let fraction ← fraction.toScalar "rtol"
        if rest.isEmpty then
          let samples := Vec.ofList t.reals
          match limit with
          | .nothing => return (all fraction samples).map Fin.val
          | _ =>
              match ← limit.toNumber "num_peaks" with
              | .whole i => return (strongest fraction i samples).map Fin.val
              | .real _ => throw .unwrittenCount
        else throw .shapesDisagree

/-- The spectrum in decibels below its maximum, place by place. -/
def decibelsOfTensor (t : Tensor α) : Outcome α (Tensor α) :=
  match Scalar.maximum? t.reals with
  | some top => .ok (t.mapReal fun z => decibel top z.re)
  | none => .error .emptyValues

theorem isPeak_interior {m : α} {s : Vector α n} {i : Fin n} (h : isPeak m s i = true) :
    0 < i.val ∧ i.val + 1 < n := by
  unfold isPeak at h
  split at h
  · assumption
  · simp at h

/-- There are no more strongest peaks than are asked for. -/
theorem length_strongest_le (fraction : α) (k : Nat) (s : Vector α n) :
    (strongest fraction k s).length ≤ k := by
  rw [strongest, cutTake_natCast]
  exact List.length_take_le _ _

end Peaks

end PhasedArray
