import PhasedArray.Geometry
import PhasedArray.Subspace

set_option autoImplicit false

/-!
# Rotation fits: directions from the shift between two sub-arrays (SPEC §4.5)

The first and the last `m - 1` elements of a uniform line form two arrays that
differ by a shift of one element.  On the signal subspace that shift is a linear
map, the rotation, and its eigenvalues are the phase steps of the sources.  Least
squares puts all error on the second sub-array; total least squares shares it
between both.  A fit that would divide by a singular matrix has no result.
-/

namespace PhasedArray

/-- How the rotation is fitted. -/
inductive RotationFit where
  | leastSquares
  | totalLeastSquares
  deriving DecidableEq, Repr, Inhabited

namespace Rotation

variable {α : Type} [Scalar α] {m k l n : Nat}

/-- The default bound below which a singular value counts as zero.  The matrices it
is applied to are made from orthonormal columns, so the bound is an absolute one. -/
def defaultTolerance : α := 1e-10

/-- Whether a matrix has an entry that is not finite, no singular value, or one at
most as large as the tolerance, which is looked at if there are values to compare. -/
def isSingular (S : Solvers α) (tolerance : Outcome α α) (A : Mat (Cplx α) n k) :
    Outcome α Bool :=
  if A.isFinite then
    match (S.singularValues A).toList.getLast? with
    | none => .ok true
    | some σ => tolerance.map fun τ => σ ≤ τ
  else .ok true

/-- The solution of the normal equations with the Hermitian matrix `gram`, if that is
regular. -/
def solveNormal (S : Solvers α) (tolerance : Outcome α α) (gram : Mat (Cplx α) k k)
    (right : Mat (Cplx α) k l) : Outcome α (Option (Mat (Cplx α) k l)) := do
  if ← isSingular S tolerance gram then return none
  else if right.isFinite then return S.solve gram.ofUpper right
  else throw .undefinedNumber

/-- The rotation `(U₁ᴴ U₁)⁻¹ U₁ᴴ U₂`, if `U₁ᴴ U₁` is regular. -/
def leastSquares (S : Solvers α) (tolerance : Outcome α α) (U₁ : Mat (Cplx α) m k)
    (U₂ : Mat (Cplx α) m l) : Outcome α (Option (Mat (Cplx α) k l)) :=
  solveNormal S tolerance (U₁.adjoint * U₁) (U₁.adjoint * U₂)

/-- The block of right singular vectors that meets the first sub-array's columns and
the smallest singular values. -/
def upperBlock (V : Mat (Cplx α) (k + l) (k + l)) : Mat (Cplx α) k l :=
  Mat.of fun i j => V (Fin.castAdd l i) (Fin.natAdd k j)

/-- The block of right singular vectors that meets the second sub-array's columns and
the smallest singular values. -/
def lowerBlock (V : Mat (Cplx α) (k + l) (k + l)) : Mat (Cplx α) l l :=
  Mat.of fun i j => V (Fin.natAdd k i) (Fin.natAdd k j)

/-- The rotation `-V₁₂ V₂₂⁻¹` from the right singular vectors of `[U₁ | U₂]`, if `V₂₂`
is regular. -/
def totalLeastSquares (S : Solvers α) (tolerance : Outcome α α) (U₁ : Mat (Cplx α) m k)
    (U₂ : Mat (Cplx α) m l) : Outcome α (Option (Mat (Cplx α) k l)) := do
  let stacked := U₁.beside U₂
  if stacked.isFinite then
    let V := (S.rightSingular stacked).2
    let lower := lowerBlock V
    if ← isSingular S tolerance lower then return none
    else return (S.inverse lower).map fun inv => -upperBlock V * inv
  else throw .undefinedNumber

/-- The rotation that the fit finds between two sub-arrays. -/
def fit (S : Solvers α) (kind : RotationFit) (tolerance : Outcome α α) (U₁ : Mat (Cplx α) m k)
    (U₂ : Mat (Cplx α) m l) : Outcome α (Option (Mat (Cplx α) k l)) :=
  match kind with
  | .leastSquares => leastSquares S tolerance U₁ U₂
  | .totalLeastSquares => totalLeastSquares S tolerance U₁ U₂

/-- The direction whose phase step is `φ`; steps that no direction has go to the
nearer end of the half turn. -/
@[inline] def directionOfStep (g : Geometry α) (φ : α) : α :=
  Scalar.arcsin (Scalar.clamp (-1) 1 (φ / (2 * Scalar.pi * g.spacing)))

/-- The directions that belong to the eigenvalues of a rotation. -/
def directions (S : Solvers α) (g : Geometry α) (Ψ : Mat (Cplx α) k k) : List α :=
  (S.eigenvalues Ψ).toList.map fun z => directionOfStep g z.arg

/-- The directions of a signal subspace; `none` if the fit has no result. -/
def ofSubspace (S : Solvers α) (kind : RotationFit) (tolerance : Outcome α α) (g : Geometry α)
    (U : Mat (Cplx α) m k) : Outcome α (Option (List α)) := do
  let Ψ ← fit S kind tolerance U.dropLastRow U.dropFirstRow
  return Ψ.map (directions S g)

/-! ## Tensors of any shape -/

/-- The directions of a rotation, which has to be a square matrix of finite entries, or of
several of them along axes in front. -/
def directionsOfTensor (S : Solvers α) (g : Geometry α) (t : Tensor α) :
    Outcome α (List Nat × List α) := do
  let t ← t.toSolver
  if !t.isFinite then throw .undefinedNumber
  match t.asSquares? with
  | some ⟨_, Ψs⟩ => return (t.shape.dropLast, Ψs.flatMap (directions S g))
  | none => throw .shapesDisagree

/-- A matrix for a fit: its entries, and the whole numbers or switches as which they were
given. -/
structure Operand (α : Type) (m k : Nat) where
  entries : Mat (Cplx α) m k
  whole : Option (Option Word × Mat Int m k)

/-- The two axes of a tensor as a matrix for a fit. -/
def Operand.ofTensor? (t : Tensor α) : Option ((m : Nat) × (k : Nat) × Operand α m k) :=
  t.asMatrix?.map fun ⟨m, k, U⟩ => ⟨m, k, U, t.asWhole? m k⟩

/-- All rows but the last. -/
def Operand.dropLastRow (A : Operand α m k) : Operand α (m - 1) k :=
  ⟨A.entries.dropLastRow, A.whole.map fun (w, W) => (w, W.dropLastRow)⟩

/-- All rows but the first. -/
def Operand.dropFirstRow (A : Operand α m k) : Operand α (m - 1) k :=
  ⟨A.entries.dropFirstRow, A.whole.map fun (w, W) => (w, W.dropFirstRow)⟩

/-- What is kept of a sum of products: a word keeps to its range, and switches keep to one
and zero. -/
def keptSum : Option Word → List Int → Int
  | some w, terms => w.sum terms
  | none, terms => if terms.all (· == 0) then 0 else 1

/-- The product `Aᴴ B`; words of one kind keep to their range. -/
def Operand.cross (A : Operand α m k) (B : Operand α m l) : Mat (Cplx α) k l :=
  match A.whole, B.whole with
  | some (v, V), some (w, W) =>
      match Word.shared? v w with
      | some word => Mat.of fun i j =>
          .ofReal (Scalar.ofInt (keptSum word ((List.finRange m).map fun r => V r i * W r j)))
      | none => A.entries.adjoint * B.entries
  | _, _ => A.entries.adjoint * B.entries

/-- The rotation that the fit finds between two matrices. -/
def fitOperands (S : Solvers α) (kind : RotationFit) (tolerance : Outcome α α)
    (A : Operand α m k) (B : Operand α m l) : Outcome α (Option (Mat (Cplx α) k l)) :=
  match kind with
  | .leastSquares => solveNormal S tolerance (A.cross A) (A.cross B)
  | .totalLeastSquares => totalLeastSquares S tolerance A.entries B.entries

/-- What a least-squares fit makes of a first tensor, if no second one fits it: nothing if
its own products are singular, the fault of the second one otherwise. -/
def leastSquaresAlone (S : Solvers α) (tolerance : Outcome α α) (t : Tensor α) (e : Fault α) :
    Outcome α (Option (Tensor α)) :=
  match Operand.ofTensor? t with
  | some ⟨_, _, A⟩ => do
      if ← isSingular S tolerance (A.cross A) then return none else throw e
  | none =>
      let sum := t.entries.foldl (fun acc z => acc + z.conj * z) 0
      if t.rank = 1 ∧ !sum.isFinite then .ok none else .error .shapesDisagree

/-- The fault of a tensor that does not fit another one in a product. -/
def misfitOf (t : Tensor α) : Fault α :=
  match t.kind with
  | .assorted values =>
      if values.all fun e => e.number?.isSome then .undefinedNumber else .assortedEntries
  | _ => .shapesDisagree

/-- The rotation between two tensors of which the first one holds numbers.  A least-squares
fit looks at that one alone before it looks at the other. -/
def fitNumbers (S : Solvers α) (kind : RotationFit) (tolerance : Outcome α α) (t₁ t₂ : Tensor α) :
    Outcome α (Option (Tensor α)) :=
  let alone : Outcome α (Option (Tensor α)) :=
    match kind with
    | .leastSquares => leastSquaresAlone S tolerance t₁ (misfitOf t₂)
    | .totalLeastSquares => .error .shapesDisagree
  if t₂.isAssorted then alone
  else
    match Operand.ofTensor? t₁, Operand.ofTensor? t₂ with
    | some ⟨m₁, _, A⟩, some ⟨m₂, l, B⟩ =>
        if h : m₂ = m₁ then do
          let Ψ ← fitOperands S kind tolerance A (h ▸ B : Operand α m₁ l)
          return Ψ.map Tensor.ofMat
        else alone
    | _, _ => alone

/-- A tensor as a fit takes it. -/
def operandOf (kind : RotationFit) (t : Tensor α) : Outcome α (Tensor α) :=
  match kind with
  | .leastSquares => if t.isAssorted then .error .assortedEntries else .ok t
  | .totalLeastSquares => t.toSolver

/-- The rotation between two tensors.  Least squares takes numbers alone, total least squares
what a solver takes. -/
def fitTensors (S : Solvers α) (kind : RotationFit) (tolerance : Outcome α α) (t₁ t₂ : Tensor α) :
    Outcome α (Option (Tensor α)) :=
  match kind with
  | .leastSquares => do
      let t₁ ← operandOf kind t₁
      fitNumbers S kind tolerance t₁ t₂
  | .totalLeastSquares => do
      if t₁.rank < 2 then throw .placeMissing
      let t₁ ← operandOf kind t₁
      let t₂ ← operandOf kind t₂
      fitNumbers S kind tolerance t₁ t₂

/-- The directions of a signal subspace given as a tensor, with the number of its columns. -/
def ofTensor (S : Solvers α) (kind : RotationFit) (tolerance : Outcome α α) (g : Geometry α)
    (t : Tensor α) : Outcome α (Nat × Option (List α)) := do
  if t.rank < 2 then throw .placeMissing
  let t ← operandOf kind t
  match Operand.ofTensor? t with
  | none => throw .shapesDisagree
  | some ⟨_, k, A⟩ =>
      let Ψ ← fitOperands S kind tolerance A.dropLastRow A.dropFirstRow
      return (k, Ψ.map (directions S g))

end Rotation

end PhasedArray
