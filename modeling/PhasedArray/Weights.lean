import PhasedArray.Covariance
import PhasedArray.Geometry
import PhasedArray.Solvers

set_option autoImplicit false

/-!
# Weights: closed-form beams (SPEC §4.7)

An array with weights `w` answers a wave with steering vector `a` by `∑ wₙ aₙ`, without
conjugation; the matched filter of a direction is therefore the conjugate of its
steering vector.  Weights are scaled to a given total power, which is one unless the
caller says otherwise; weights of no or infinite length cannot be scaled.
-/

namespace PhasedArray

namespace Weights

variable {α : Type} [Scalar α] {n : Nat}

/-- The response of the weights `w` to a wave with steering vector `a`. -/
@[inline] def response (w a : Vector (Cplx α) n) : Cplx α := Vec.bilinear w a

/-- The default total power. -/
def unitPower : α := 1

/-- Scales weights to a total power. -/
@[specialize] def scaleTo (power : α) (w : Vector (Cplx α) n) :
    Outcome α (Vector (Cplx α) n) :=
  let norm := Vec.norm w
  if !Scalar.isFinite norm || Scalar.same norm 0 then .error .weightsNotScalable
  else .ok (w.map fun z => (z.scale (Scalar.sqrt power)).divReal norm)

/-- Scales weights to unit power. -/
@[inline] def normalize (w : Vector (Cplx α) n) : Outcome α (Vector (Cplx α) n) :=
  scaleTo unitPower w

/-- The matched filter of a steering vector. -/
def matchedTo (a : Vector (Cplx α) n) : Outcome α (Vector (Cplx α) n) := normalize (a.map Cplx.conj)

/-- The matched filter of direction `θ`. -/
def matched (g : Geometry α) (θ : α) : Outcome α (Vector (Cplx α) g.size) :=
  matchedTo (g.steering θ)

/-- The sum of the steering vectors of several directions. -/
def steeringSum (g : Geometry α) (θ : List α) : Vector (Cplx α) g.size :=
  let A := g.steeringOf θ
  Vector.ofFn fun m => total θ.length fun j => A m j

/-- The matched filter of the sum of several directions. -/
def multiTarget (g : Geometry α) (θ : List α) : Outcome α (Vector (Cplx α) g.size) :=
  if θ.isEmpty then .error .noTargets else matchedTo (steeringSum g θ)

/-! ## Minimum variance -/

/-- The default bound on the ratio of the smallest to the largest singular value. -/
def defaultSingularRatio : α := 1e-12

/-- The condition number of a matrix with the largest singular value `first` and the smallest
one `last`. -/
def condition (first last : α) : α := first / Scalar.atLeast 1e-300 last

/-- The condition number if the singular values are too far apart to invert: the
largest is zero, or the smallest at most `ratio` times the largest.  The ratio is looked at
only if the largest is not zero. -/
def singularCondition? (ratio : Outcome α α) (σs : List α) : Outcome α (Option α) :=
  match σs.head?, σs.getLast? with
  | some first, some last =>
      if Scalar.same first 0 then .ok (some (condition first last))
      else ratio.map fun ratio =>
        if last ≤ first * ratio then some (condition first last) else none
  | _, _ => .ok none

/-- The weights of unit response toward `θ` and least output power under the covariance
`C`, before they are scaled: the conjugate of `C⁻¹ a / (aᴴ C⁻¹ a)`. -/
def minimumVarianceDirection (S : Solvers α) (C : Mat (Cplx α) n n) (a : Vector (Cplx α) n) :
    Outcome α (Vector (Cplx α) n) :=
  match S.solve C.ofUpper (Mat.ofColumns (Vector.singleton a)) with
  | none => .error .interferenceUnsolvable
  | some X =>
      let x := X.column 0
      let power := (Vec.inner a x).re
      if power ≤ 0 then .error .interferenceNotPositive
      else .ok (x.map fun z => (z.divReal power).conj)

/-- Refuses a covariance with an entry that is not finite, and one that is singular by its
singular values. -/
def checkInterference {m : Nat} (S : Solvers α) (ratio : Outcome α α) (C : Mat (Cplx α) m m) :
    Outcome α Unit :=
  if C.isFinite then do
    match ← singularCondition? ratio (S.singularValues C).toList with
    | some condition => throw (.interferenceSingular condition)
    | none => return ()
  else .error .interferenceNotFinite

/-- The minimum-variance weights toward the steering vector `a` under a covariance that has
been checked. -/
def minimumVarianceToward (S : Solvers α) (C : Mat (Cplx α) n n) (a : Vector (Cplx α) n) :
    Outcome α (Vector (Cplx α) n) :=
  if a.all Cplx.isFinite then do
    let w ← minimumVarianceDirection S C a
    normalize w
  else .error .undefinedNumber

/-- The minimum-variance weights toward `θ` under the covariance `C`. -/
def minimumVariance (S : Solvers α) (ratio : α) (g : Geometry α)
    (C : Mat (Cplx α) g.size g.size) (θ : α) : Outcome α (Vector (Cplx α) g.size) := do
  checkInterference S (.ok ratio) C
  minimumVarianceToward S C (g.steering θ)

/-! ## Values as they were given -/

/-- The matched filter of the sum of the directions in a list as it was given. -/
def multiTargetOf (g : Geometry α) (θ : Setting α) : Outcome α (Vector (Cplx α) g.size) := do
  let l ← θ.toReals
  if l.isEmpty then throw .noTargets
  g.checkExtent
  multiTarget g l

/-- The square roots of powers as they were given, which have to fit where numbers are
kept. -/
def rootsOf (power : Setting α) : Outcome α (Tensor α) :=
  match power with
  | .list _ => do
      let t ← power.toTensor
      if t.isAssorted then throw .assortedEntries
      return t.mapReal fun z => Scalar.sqrt z.re
  | power => (power.toKept "power").map fun x => Tensor.ofScalar (Scalar.sqrt x)

/-- The sum of products of whole numbers of one kind, in words. -/
def wholeResponse (w : Word) (xs ys : Array Int) (pairs : List (Nat × Nat)) : α :=
  Scalar.ofInt (w.sum (pairs.map fun p => xs.getD p.1 0 * ys.getD p.2 0))

/-- A sum with the product of two more numbers; what is no number has no product. -/
def addProduct (sum : Number α) (x y : Option (Number α)) : Outcome α (Number α) :=
  match x, y with
  | some x, some y =>
      match (x.mul? y).bind sum.add? with
      | some next => .ok next
      | none => .error .numberTooLarge
  | _, _ => .error .assortedEntries

/-- The sum of products of numbers kept as they were given. -/
def assortedResponse (xs ys : Array (Option (Number α))) (pairs : List (Nat × Nat)) :
    Outcome α (Number α) :=
  pairs.foldlM
    (fun acc (p : Nat × Nat) => addProduct acc (xs.getD p.1 none) (ys.getD p.2 none)) (.whole 0)

/-- The whole numbers of two tensors with the kind of word that keeps their products. -/
def wholeProducts? (x y : EntryKind α) : Option (Word × Array Int × Array Int) := do
  let (v, xs) ← x.words?
  let (w, ys) ← y.words?
  let word ← Word.shared? v w
  return (word.getD .signed, xs, ys)

/-- The sum of the products of corresponding entries of two tensors.  Real tensors have
real products, and whole numbers keep to words of one kind if both do. -/
def responseOfTensors (w a : Tensor α) : Outcome α (Cplx α) := do
  if w.isTextual || a.isTextual then throw .assortedEntries
  match Tensor.pairing? w a with
  | none => throw .shapesDisagree
  | some (_, pairs) =>
      let sum (x y : Tensor α) (product : Cplx α → Cplx α → Cplx α) : Cplx α := pairs.foldl
        (fun acc p => acc + product (x.entries.getD p.1 0) (y.entries.getD p.2 0)) 0
      match w.numbers?, a.numbers? with
      | some xs, some ys =>
          if w.isAssorted || a.isAssorted then
            let x ← assortedResponse xs ys pairs
            let x ← x.toScalar
            return .ofReal x
          match wholeProducts? w.kind a.kind with
          | some (word, xs, ys) => return .ofReal (wholeResponse word xs ys pairs)
          | none => return sum w a fun x y => .ofReal (x.re * y.re)
      | _, _ =>
          let w ← w.toAddends
          let a ← a.toAddends
          return sum w a (· * ·)

/-- The length of the entries of a tensor as one vector.  A whole number that no word holds
has no root unless it meets a scalar. -/
def lengthOf (t : Tensor α) : Outcome α α :=
  match t.kind with
  | .assorted values =>
      if t.isTextual then t.toReal.map fun r => Vec.norm r.asVector
      else do
        let xs := values.map Entry.number?
        match ← assortedResponse xs xs ((List.range xs.size).map fun k => (k, k)) with
        | .real power => return Scalar.sqrt power
        | .whole _ => throw .oversizedNumber
  | _ => .ok (Vec.norm t.asVector)

/-- Scales the entries of a tensor to a total power, or to several ones, which stretch over
them; real weights stay real.  The power is looked at after the length of the weights. -/
def scaleTensor (power : Setting α) (t : Tensor α) : Outcome α (Tensor α) := do
  let norm ← lengthOf t
  if !Scalar.isFinite norm || Scalar.same norm 0 then throw .weightsNotScalable
  let roots ← rootsOf power
  let t ← t.toAddends
  let scaled :=
    if t.isReal then Tensor.combine? (fun z r => .ofReal (z.re * r.re / norm)) t roots
    else Tensor.combine? (fun z r => (z.scale r.re).divReal norm) t roots
  match scaled with
  | some r => return r
  | none => throw .shapesDisagree

/-- The default total power, as it would be given. -/
def defaultPower : Setting α := .real unitPower

/-- The matched filter of a direction as it was given; lists of directions are scaled as a
whole. -/
def matchedToward (g : Geometry α) (θ : Setting α) : Outcome α (Tensor α) := do
  let a ← g.steeringToward θ
  match a.asVectorOf? g.size with
  | some a => (matchedTo a).map Tensor.ofVector
  | none => scaleTensor defaultPower (a.map Cplx.conj)

/-- The minimum-variance weights toward several steering vectors at once, under a covariance
that has been checked: the columns of `A` are weighed as if they were one vector. -/
def minimumVarianceColumns {k : Nat} (S : Solvers α) (C : Mat (Cplx α) n n)
    (A : Mat (Cplx α) n k) : Outcome α (Mat (Cplx α) n k) :=
  if A.isFinite then
    match S.solve C.ofUpper A with
    | none => .error .interferenceUnsolvable
    | some X =>
        let power := (total n fun i => total k fun j => (A i j).conj * X i j).re
        if power ≤ 0 then .error .interferenceNotPositive
        else .ok (X.map fun z => (z.divReal power).conj)
  else .error .undefinedNumber

/-- The number of columns that a tensor of the given shape has beside an `n × n` matrix.  A
list is one column, and a row if the matrix has one entry. -/
def columnsOf? (n : Nat) : List Nat → Option Nat
  | [m] => if m = n then some 1 else if n = 1 ∧ m ≠ 0 then some m else none
  | [m, k] => if m = n then some k else none
  | _ => none

/-- The minimum-variance weights toward a tensor of steering vectors. -/
def minimumVarianceAmong (S : Solvers α) (C : Mat (Cplx α) n n) (a : Tensor α) :
    Outcome α (Tensor α) := do
  match columnsOf? n a.shape with
  | none => throw .shapesDisagree
  | some k =>
      if h : a.entries.size = n * k then
        let W ← minimumVarianceColumns S C (Mat.ofEntries ⟨a.entries, h⟩)
        match Tensor.ofEntries? a.shape (Tensor.ofMat W).entries .complex with
        | some w => scaleTensor defaultPower w
        | none => throw .shapesDisagree
      else throw .shapesDisagree

/-- The minimum-variance weights under a tensor that has to be a covariance of the array,
and their response.  The direction is looked at after the covariance. -/
def minimumVarianceOfTensor (S : Solvers α) (ratio : Setting α) (g : Geometry α) (t : Tensor α)
    (θ : Setting α) : Outcome α (Tensor α × Cplx α) := do
  let t ← t.toComplex
  match t.asMat? g.size g.size with
  | some C => do
      checkInterference S (ratio.toScalar "singular_rtol") C
      let a ← g.steeringToward θ
      match a.asVectorOf? g.size with
      | some a => do
          let w ← minimumVarianceToward S C a
          return (.ofVector w, response w a)
      | none => do
          let w ← minimumVarianceAmong S C a
          let z ← responseOfTensors w a
          return (w, z)
  | none => throw (.interferenceShape g.givenSize t.shape)

/-- The minimum-variance weights toward a direction that snapshots lead to, with their response:
the sample covariance is loaded, and used as interference. -/
def ofSnapshots (S : Solvers α) (ratio loading : Setting α) (g : Geometry α) (averaging : Bool)
    (t : Tensor α) (θ : Setting α) : Outcome α (Tensor α × Cplx α) := do
  let X ← Snapshots.ofTensor t
  let C ← Covariance.loadAny loading (.ofMat (Covariance.sample averaging X.samples))
  minimumVarianceOfTensor S ratio g C θ

end Weights

end PhasedArray
