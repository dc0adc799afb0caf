import PhasedArray.Geometry
import PhasedArray.RandomStream

set_option autoImplicit false

/-!
# Synthetic snapshots (SPEC §4.6)

Far-field sources of unit power send symbols of random phase; each element adds
circular noise.  The symbols are drawn before the noise, and the real part of all
noise before its imaginary part, so that the same stream gives the same symbols at
every signal-to-noise ratio.
-/

namespace PhasedArray

/-- What snapshots are to show: sources in some directions, a signal-to-noise ratio in
decibels, and a number of snapshots, each of them as it was given. -/
structure Scene (α : Type) where
  angles : Setting α
  snr : Setting α
  snapshots : Setting α

namespace Signal

variable {α σ : Type} [Scalar α]

/-- The default number of snapshots. -/
def defaultSnapshots : Setting α := .whole 256

/-- The power of the noise against a source of power one. -/
def noisePower (snr : Number α) : Outcome α α := do
  let tenth ← snr.toQuotient 10
  let power := Scalar.pow 10 (-tenth)
  if Scalar.isFinite tenth && !Scalar.isFinite power && !Scalar.isNaN power then
    throw .powerTooLarge
  else return power

/-- The power of the noise of a scene. -/
def noisePowerOf (scene : Scene α) : Outcome α α := do
  let snr ← scene.snr.toNumber "snr_db"
  noisePower snr

/-- The directions and the number of snapshots of a scene.  A number below one is refused
before the directions are looked at, one that was not written as a whole number after. -/
def planOf (g : Geometry α) (scene : Scene α) : Outcome α (List α × Nat) := do
  let n ← scene.snapshots.toNumber "num_snapshots"
  if n.belowOne then throw (.snapshotCount scene.snapshots)
  let θ ← g.directionsAmong scene.angles
  let count ← scene.snapshots.toExtent "num_snapshots"
  Extent.check Extent.countable (θ.length * count)
  return (θ, count)

/-- The symbols of `k` sources in `n` snapshots. -/
@[inline] def symbols (G : Generator α σ) (k n : Nat) (s : σ) : Mat (Cplx α) k n × σ :=
  match Generator.drawMat G.uniform k n s with
  | (u, s) => (u.map fun x => Cplx.cis (2 * Scalar.pi * x), s)

/-- The symbols of a number of sources in a number of snapshots as they were given, which have
to be written as whole numbers. -/
def symbolsGiven (G : Generator α σ) (sources snapshots : Setting α) (s : σ) :
    Outcome α ((k : Nat) × (n : Nat) × Mat (Cplx α) k n) × σ :=
  let plan : Outcome α (Nat × Nat) := do
    let k ← sources.toExtent "num_sources"
    let n ← snapshots.toExtent "num_snapshots"
    Extent.check Extent.countable (k * n)
    return (k, n)
  match plan with
  | .error e => (.error e, s)
  | .ok (k, n) =>
      match symbols G k n s with
      | (S, s) => (.ok ⟨k, n, S⟩, s)

/-- A sample of noise from two values of variance one.  The parts are put together and
scaled as complex numbers, so an infinite value leaves both of them undefined. -/
@[inline] def noiseSample (amplitude x y : α) : Cplx α :=
  .ofReal amplitude * (.ofReal x + ⟨0, 1⟩ * .ofReal y)

/-- The amplitude of either part of noise of the given power. -/
@[inline] def amplitudeOf (power : α) : α := Scalar.sqrt (power / 2)

/-- Noise of the given amplitude at `m` elements in `n` snapshots. -/
@[inline] def noise (G : Generator α σ) (amplitude : α) (m n : Nat) (s : σ) :
    Mat (Cplx α) m n × σ :=
  match Generator.drawMat G.normal m n s with
  | (x, s) =>
      match Generator.drawMat G.normal m n s with
      | (y, s) => (Mat.of fun i j => noiseSample amplitude (x i j) (y i j), s)

/-- Noise at the elements of an array, of a power and in a number of snapshots as they were
given.  The numbers of elements and of snapshots have to be written as whole ones. -/
def noiseGiven (G : Generator α σ) (g : Geometry α) (power snapshots : Setting α) (s : σ) :
    Outcome α ((n : Nat) × Mat (Cplx α) g.size n) × σ :=
  let plan : Outcome α (α × Nat) := do
    let power ← power.toNumber "power"
    let half ← power.toQuotient 2
    let n ← snapshots.toExtent "num_snapshots"
    if !g.isCounted then throw .unwrittenCount
    Extent.check Extent.countable (g.size * n)
    return (Scalar.sqrt half, n)
  match plan with
  | .error e => (.error e, s)
  | .ok (amplitude, n) =>
      match noise G amplitude g.size n s with
      | (W, s) => (.ok ⟨n, W⟩, s)

/-- `n` snapshots of sources in the directions `θ`.  The noise is looked at after the symbols
are drawn; it is drawn only if it has power, and takes a number of elements that was written
as a whole one. -/
@[specialize] def snapshotsOf (G : Generator α σ) (g : Geometry α) (θ : List α) (n : Nat)
    (power : Outcome α α) (s : σ) : Outcome α (Mat (Cplx α) g.size n) × σ :=
  match symbols G θ.length n s with
  | (S, s) =>
      let clean := g.steeringOf θ * S
      match power with
      | .error e => (.error e, s)
      | .ok power =>
          if 0 < power then
            if g.isCounted then
              match noise G (amplitudeOf power) g.size n s with
              | (W, s) => (.ok (clean + W), s)
            else (.error .unwrittenCount, s)
          else (.ok clean, s)

/-- The snapshots of a scene.  One that is refused draws nothing. -/
@[specialize] def generate (G : Generator α σ) (g : Geometry α) (scene : Scene α) (s : σ) :
    Outcome α ((n : Nat) × Mat (Cplx α) g.size n) × σ :=
  match planOf g scene with
  | .error e => (.error e, s)
  | .ok (θ, n) =>
      match snapshotsOf G g θ n (noisePowerOf scene) s with
      | (.error e, s) => (.error e, s)
      | (.ok X, s) => (.ok ⟨n, X⟩, s)

end Signal

end PhasedArray
